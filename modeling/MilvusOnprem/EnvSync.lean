import MilvusOnprem.MinioRender
import MilvusOnprem.OrderedPeers
import MilvusOnprem.TopologyWatcher
import MilvusOnprem.EnvFile

/-!
# The peer lists of cluster.env

What one daemon does to the two peer lists of its `cluster.env`. The watch loop
applies an event to the mirror and waits until the handler of the event is done.
The handler and the requests to recreate MinIO share one lock. Under the lock
`PEER_IPS` and `PEER_NAMES` are written one after the other, and then come the
render, the reload and the recreate, which succeed. The daemon may stop between
any two steps; it starts again with an empty mirror.

One `_upsert_kv` is one step here.
-/
namespace MilvusOnprem.EnvSync

open PythonText EtcdClient MilvusOnprem.Topology Joining OrderedPeers TopologyWatcher EnvFile MinioRender
  GuardedRuns

/-- An ip that `",".join` takes or the filter drops. -/
def joinable : Json → Bool
  | .obj fields =>
      match Json.field "ip" fields with
      | some (.str _) | none => true
      | some v => !v.truthy
  | _ => true

/-- `_current_peer_ips_and_names`, and the fresh list of `recreate_minio_local`.
Joining the ips raises when one of them is no text. -/
def orderedPeers (peers : Mirror) : Except Exc (List (String × String)) :=
  match sortedPeers peers.entries with
  | .ok ordered =>
      if peers.entries.all fun e => joinable e.2 then .ok ordered else .error .typeError
  | .error e => .error e

def newPeerIps (ordered : List (String × String)) : String := join "," (ordered.map Prod.snd)

def newPeerNames (ordered : List (String × String)) : String := join "," (ordered.map Prod.fst)

/-- What is done next under the lock. -/
inductive Todo where
  | peerIps (ordered : List (String × String))
  | peerNames (ordered : List (String × String))
  | rest
deriving DecidableEq

/-- The first half of `_sync_cluster_env_and_render`: nothing is written for an
empty topology, or for one without the own ip. -/
def syncStart (config : DaemonConfig) (peers : Mirror) : Todo :=
  match orderedPeers peers with
  | .ok ordered =>
      if ordered = [] then .rest
      else if config.localIp ≠ "" ∧ config.localIp ∉ ordered.map Prod.snd then .rest
      else .peerIps ordered
  | .error _ => .rest

inductive Holder where
  | handler
  | request
deriving DecidableEq, Repr

/-- A daemon and its `cluster.env`; whether a handler waits for the lock, and who
holds it. -/
structure World where
  watcher : TopologyWatcher.World
  file : Lines
  waiting : Bool
  lock : Option (Holder × Todo)

inductive Act where
  | watch (a : TopologyWatcher.Act)
  | dispatch
  | request
  | refresh
  | write
  | release
  | upsert (key : Key) (value : String)
  | restart
deriving DecidableEq

/-- The watch loop awaits a handler. -/
def World.handling (w : World) : Bool :=
  w.waiting || w.lock.any fun l => l.1 = .handler

/-- Whether the handlers are notified of the delivered event. -/
def notifies (w : TopologyWatcher.World) : TopologyWatcher.Act → Bool
  | .deliver =>
      match w.phase with
      | .streaming (ev :: _) =>
          !w.stopping && match (applyEvent w.peers ev).2 with
            | .ok (some _) => true
            | _ => false
      | _ => false
  | _ => false

def step (config : DaemonConfig) (w : World) : Act → Option World
  | .watch a =>
      if a = .deliver ∧ w.handling = true then none
      else
        (TopologyWatcher.step w.watcher a).map fun v =>
          { w with watcher := v, waiting := w.waiting || notifies w.watcher a }
  | .dispatch =>
      if w.waiting = true ∧ w.lock = none then
        some { w with
          waiting := false
          lock := some (.handler, syncStart config w.watcher.peers) }
      else none
  | .request => if w.lock = none then some { w with lock := some (.request, .rest) } else none
  -- `recreate_minio_local` reads the prefix anew
  | .refresh =>
      match w.lock with
      | some (h, .rest) =>
          some { w with lock := some (h, syncStart config (contents w.watcher.kv)) }
      | _ => none
  | .write =>
      match w.lock with
      | some (h, .peerIps ordered) =>
          some { w with
            file := upsertKv PEER_IPS (newPeerIps ordered) w.file
            lock := some (h, .peerNames ordered) }
      | some (h, .peerNames ordered) =>
          some { w with
            file := upsertKv PEER_NAMES (newPeerNames ordered) w.file
            lock := some (h, .rest) }
      | _ => none
  | .release =>
      match w.lock with
      | some (_, .rest) => some { w with lock := none }
      | _ => none
  -- the host sync, the upgrade and the token rotation write other keys
  | .upsert key value =>
      if key = PEER_IPS ∨ key = PEER_NAMES then none
      else some { w with file := upsertKv key value w.file }
  | .restart =>
      some { w with
        watcher := TopologyWatcher.start w.watcher.kv
        waiting := false
        lock := none }

/-- A daemon that starts on a file and a store. -/
def start (file : Lines) (kv : OrderedMap String String) : World where
  watcher := TopologyWatcher.start kv
  file := file
  waiting := false
  lock := none

/-! ## What a step can do -/

inductive Steps (config : DaemonConfig) (w : World) : Act → World → Prop
  | watch {a v} : (a = .deliver → w.handling = false) →
      TopologyWatcher.step w.watcher a = some v →
      Steps config w (.watch a)
        { w with watcher := v, waiting := w.waiting || notifies w.watcher a }
  | dispatch : w.waiting = true → w.lock = none → Steps config w .dispatch
      { w with waiting := false, lock := some (.handler, syncStart config w.watcher.peers) }
  | request : w.lock = none → Steps config w .request { w with lock := some (.request, .rest) }
  | refresh {h} : w.lock = some (h, .rest) → Steps config w .refresh
      { w with lock := some (h, syncStart config (contents w.watcher.kv)) }
  | writeIps {h ordered} : w.lock = some (h, .peerIps ordered) → Steps config w .write
      { w with
        file := upsertKv PEER_IPS (newPeerIps ordered) w.file
        lock := some (h, .peerNames ordered) }
  | writeNames {h ordered} : w.lock = some (h, .peerNames ordered) → Steps config w .write
      { w with
        file := upsertKv PEER_NAMES (newPeerNames ordered) w.file
        lock := some (h, .rest) }
  | release {h} : w.lock = some (h, .rest) → Steps config w .release { w with lock := none }
  | upsert {key value} : key ≠ PEER_IPS → key ≠ PEER_NAMES →
      Steps config w (.upsert key value) { w with file := upsertKv key value w.file }
  | restart : Steps config w .restart
      { w with watcher := TopologyWatcher.start w.watcher.kv, waiting := false, lock := none }

theorem steps_of_step {config : DaemonConfig} {w v : World} {act : Act}
    (h : step config w act = some v) : Steps config w act v := by
  cases act with
  | watch a =>
      simp only [step] at h
      split_ifs at h with hbusy
      obtain ⟨u, hu, rfl⟩ := Option.map_eq_some_iff.mp h
      refine .watch (fun ha => ?_) hu
      simpa [ha] using hbusy
  | dispatch =>
      simp only [step] at h
      split_ifs at h with hfree
      cases h
      exact .dispatch hfree.1 hfree.2
  | request =>
      simp only [step] at h
      split_ifs at h with hfree
      cases h
      exact .request hfree
  | refresh =>
      simp only [step] at h
      split at h
      · next hlock =>
          cases h
          exact .refresh hlock
      · cases h
  | write =>
      simp only [step] at h
      split at h
      · next hlock =>
          cases h
          exact .writeIps hlock
      · next hlock =>
          cases h
          exact .writeNames hlock
      · cases h
  | release =>
      simp only [step] at h
      split at h
      · next hlock =>
          cases h
          exact .release hlock
      · cases h
  | upsert key value =>
      simp only [step] at h
      split_ifs at h with hkey
      cases h
      exact .upsert (fun he => hkey (.inl he)) (fun he => hkey (.inr he))
  | restart =>
      cases h
      exact .restart

/-! ## The peers of a topology -/

/-- An info of a peer whose name and ip can stand in a list. -/
def IsPeer (name : String) (info : Json) : Prop :=
  IsField name ∧ ∃ ip, ipOf info = some ip ∧ IsField ip

def OfPeers (peers : Mirror) : Prop := ∀ name info, peers.get name = some info → IsPeer name info

/-- A write under the prefix puts a peer. -/
def PutsPeer : TopologyWatcher.Act → Prop
  | .put key value => ∀ name, key = TOPOLOGY_PREFIX ++ name →
      ∃ info, JsonText.loads value = some info ∧ IsPeer name info
  | _ => True

def PutsPeers : Act → Prop
  | .watch a => PutsPeer a
  | _ => True

theorem joinable_of_ipOf {info : Json} {ip : String} (h : ipOf info = some ip) :
    joinable info = true := by
  cases info with
  | obj fields =>
      simp only [ipOf] at h
      split at h
      · next v hv => simp only [joinable, hv]
      · cases h
  | _ => rfl

/-- The list of a topology of peers has them all with their ips. -/
theorem orderedPeers_ok {peers : Mirror} (h : OfPeers peers) :
    ∃ ordered, orderedPeers peers = .ok ordered ∧
      ∀ name ip, (name, ip) ∈ ordered ↔ ∃ info, peers.get name = some info ∧ ipOf info = some ip := by
  have hpeer : ∀ e ∈ peers.entries, IsPeer e.1 e.2 := fun e he =>
    h e.1 e.2 (OrderedMap.mem_entries.mp he)
  have hobj : ∀ e ∈ peers.entries, ∃ fields, e.2 = .obj fields := by
    intro e he
    obtain ⟨-, ip, hip, hfield⟩ := hpeer e he
    exact (usedIp_of_ipOf hip hfield.1).2
  have hjoin : (peers.entries.all fun e => joinable e.2) = true := by
    apply List.all_eq_true.mpr
    intro e he
    obtain ⟨-, ip, hip, -⟩ := hpeer e he
    exact joinable_of_ipOf hip
  obtain ⟨ordered, hordered⟩ := sortedPeers_objects hobj
  refine ⟨ordered, by simp only [orderedPeers, hordered, hjoin, if_true], fun name ip => ?_⟩
  rw [mem_sortedPeers hordered]
  constructor
  · rintro ⟨info, hinfo, hused⟩
    obtain ⟨-, ip', hip', hfield⟩ := hpeer _ hinfo
    have hsame := (usedIp_of_ipOf hip' hfield.1).1.symm.trans hused
    exact ⟨info, OrderedMap.mem_entries.mp hinfo, hip'.trans hsame⟩
  · rintro ⟨info, hinfo, hip⟩
    have hmem := OrderedMap.mem_entries.mpr hinfo
    obtain ⟨-, ip', hip', hfield⟩ := hpeer _ hmem
    have hsame : ip' = ip := Option.some.inj (hip'.symm.trans hip)
    exact ⟨info, hmem, hsame ▸ (usedIp_of_ipOf hip' hfield.1).1⟩

instance : DecidablePred IsField := fun s =>
  inferInstanceAs (Decidable (s ≠ "" ∧ ',' ∉ s.toList ∧ '\n' ∉ s.toList))

theorem ofPeers_of_all {peers : Mirror} (h : (peers.entries.all fun e =>
    decide (IsField e.1) && (ipOf e.2).any fun ip => decide (IsField ip)) = true) :
    OfPeers peers := by
  intro name info hget
  have he := List.all_eq_true.mp h _ (OrderedMap.mem_entries.mpr hget)
  rw [Bool.and_eq_true, decide_eq_true_eq, Option.any_eq_true] at he
  obtain ⟨hname, ip, hip, hfield⟩ := he
  exact ⟨hname, ip, hip, of_decide_eq_true hfield⟩

/-- The text of a peer's entry. -/
def peerText (name ip : String) : String :=
  "\x7b\"name\": \"" ++ name ++ "\", \"ip\": \"" ++ ip ++ "\"\x7d"

end MilvusOnprem.EnvSync
