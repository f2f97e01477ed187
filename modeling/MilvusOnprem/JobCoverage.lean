import MilvusOnprem.RotatedToken
import MilvusOnprem.UpgradeAnchor

/-!
# Which peers a fan-out job reaches

The rotation of the token and the version upgrade take their peers from the
leader's mirror, while `authoritative_peers` tells such jobs to read etcd. The
mirror of a job and the contents of the prefix at its start are independent
here, so the mirror may lag by any number of changes. A peer is known by its ip,
since a stale entry of its name may carry another one.

A daemon that was reached has the change when its `cluster.env` has taken it: the
new token is carried to the shell and to all readers, the new tag is what the shell
gets. An edit that is made twice leaves what it left the first time, once it was
taken.
-/
namespace MilvusOnprem.JobCoverage

open PythonText OrderedPeers TopologyWatcher TokenRotation ImageTag RotatedToken
open EnvFormat (Line)
open MigratePulsar (Files)
open SharedSettings (Unbroken)

/-- A `cluster.env` as it is meant to be: at least one line, none broken inside. -/
structure EnvLines where
  lines : List Line
  nonempty : lines ≠ []
  unbroken : ∀ line ∈ lines, Unbroken line.render

/-- The daemons of a rotation, given the tokens they run with and their files by ip. -/
def daemonsOf (localIp : String) (running : String → String) (files : String → EnvLines) : Daemons :=
  ⟨⟨(files localIp).lines.map Line.render, running localIp⟩,
    fun p => ⟨(files p.2).lines.map Line.render, running p.2⟩⟩

/-- A run of one of the two jobs on a leader with the given ip. -/
inductive FanOut where
  | rotateToken (j : Rotation) (localIp : String) (running : String → String)
      (files : String → EnvLines) (rpc : String × String → Rpc) (self : SelfRun)
  | versionUpgrade (j : UpgradeAnchor.Job) (self : SelfRun) (rpc : String × String → UpgradeAnchor.Rpc)
      (put : UpgradeAnchor.Put) (files : Files) (anchor : Option String)

namespace FanOut

/-- The job ends done. -/
def Done : FanOut → Prop
  | .rotateToken j localIp running files rpc self =>
      (j.run (daemonsOf localIp running files) rpc self).2 = .ok ()
  | .versionUpgrade j self rpc put files anchor =>
      (j.run self rpc put files anchor).result = .ok ()

def localIp : FanOut → String
  | .rotateToken _ localIp _ _ _ _ => localIp
  | .versionUpgrade j _ _ _ _ _ => j.localIp

def nodeName : FanOut → String
  | .rotateToken j _ _ _ _ _ => j.nodeName
  | .versionUpgrade j _ _ _ _ _ => j.nodeName

def mirror : FanOut → Mirror
  | .rotateToken j _ _ _ _ _ => j.mirror
  | .versionUpgrade j _ _ _ _ _ => j.mirror

/-- The ips of the daemons that were reached: the followers whose rotation succeeded
and the leader if its own did, or the peers the upgrade loop has completed. -/
def reached : FanOut → List String
  | .rotateToken j localIp running files rpc self =>
      (j.followers.filter fun p => !Rotation.isFailure
        (j.remote (j.newToken.getD "") (daemonsOf localIp running files) rpc p).2).map Prod.snd ++
      if self = .works then [localIp] else []
  | .versionUpgrade j self rpc _ files _ => j.upgraded self rpc files

/-- The file of a daemon that was reached has the change. -/
def Taken : FanOut → String → Prop
  | .rotateToken j _ _ files _ _, ip => Carried (j.newToken.getD "") (files ip).lines
  | .versionUpgrade j self rpc put files anchor, ip =>
      imageTag ((j.run self rpc put files anchor).files ip) = j.milvusVersion.getD ""

/-- The change was applied on the daemon. -/
def Applied (f : FanOut) (ip : String) : Prop := ip ∈ f.reached ∧ f.Taken ip

/-- The change was applied on every peer with an ip in the topology, and on the
leader itself. -/
def Covers (f : FanOut) (kv : OrderedMap String String) : Prop :=
  f.Applied f.localIp ∧
    ∀ name info ip, (contents kv).get name = some info → usedIp info = some ip → f.Applied ip

/-- The mirror has the ip under another name than the leader's. -/
def Mirrored (f : FanOut) (ip : String) : Prop :=
  ∃ name info, f.mirror.get name = some info ∧ name ≠ f.nodeName ∧ usedIp info = some ip

/-- The leader goes through itself: always in a rotation, and in an upgrade if
the mirror has an entry with an ip under its name. -/
def ReachesSelf : FanOut → Prop
  | .rotateToken _ _ _ _ _ _ => True
  | .versionUpgrade j _ _ _ _ _ =>
      ∃ info ip, j.mirror.get j.nodeName = some info ∧ usedIp info = some ip

/-- What the mirror must hold of the topology. -/
def MirrorSuffices (f : FanOut) (kv : OrderedMap String String) : Prop :=
  (f.ReachesSelf ∨ f.Mirrored f.localIp) ∧
    ∀ name info ip, (contents kv).get name = some info → usedIp info = some ip →
      f.Mirrored ip ∨ ip = f.localIp

/-- The ips a rotation that ends done has reached. -/
theorem mem_reached_rotation {j : Rotation} {localIp : String} {running : String → String}
    {files : String → EnvLines} {rpc : String × String → Rpc} {self : SelfRun}
    (hdone : (rotateToken j localIp running files rpc self).Done) {ip : String} :
    ip ∈ (rotateToken j localIp running files rpc self).reached ↔
      (rotateToken j localIp running files rpc self).Mirrored ip ∨ ip = localIp := by
  obtain ⟨newToken, sorted, htoken, hpeers, hremote, hself⟩ := j.run_ok hdone
  have hall : ∀ p ∈ j.followersOf sorted,
      (!Rotation.isFailure (j.remote newToken (daemonsOf localIp running files) rpc p).2) = true := by
    intro p hp
    rw [hremote p hp]
    rfl
  have hreached : (rotateToken j localIp running files rpc self).reached =
      (j.followersOf sorted).map Prod.snd ++ [localIp] := by
    simp only [reached, Rotation.followers, hpeers, htoken, Option.getD_some, hself, if_true]
    rw [List.filter_eq_self.mpr hall]
  rw [hreached]
  simp only [Rotation.followersOf, List.mem_append, List.mem_map, List.mem_filter,
    List.mem_singleton, decide_eq_true_eq]
  refine or_congr_left ?_
  constructor
  · rintro ⟨⟨name, used⟩, ⟨hp, hname⟩, rfl⟩
    obtain ⟨info, hinfo, hused⟩ := (mem_sortedPeers hpeers).mp hp
    exact ⟨name, info, OrderedMap.mem_entries.mp hinfo, hname, hused⟩
  · rintro ⟨name, info, hinfo, hname, hused⟩
    have hp := (mem_sortedPeers hpeers).mpr ⟨info, OrderedMap.mem_entries.mpr hinfo, hused⟩
    exact ⟨(name, ip), ⟨hp, hname⟩, rfl⟩

/-- The ips an upgrade that ends done has reached. -/
theorem mem_reached_upgrade {j : UpgradeAnchor.Job} {self : SelfRun}
    {rpc : String × String → UpgradeAnchor.Rpc} {put : UpgradeAnchor.Put} {files : Files}
    {anchor : Option String} (hdone : (versionUpgrade j self rpc put files anchor).Done)
    {ip : String} :
    ip ∈ (versionUpgrade j self rpc put files anchor).reached ↔
      (versionUpgrade j self rpc put files anchor).Mirrored ip ∨
        (versionUpgrade j self rpc put files anchor).ReachesSelf ∧ ip = j.localIp := by
  obtain ⟨target, sorted, htarget, -, hcheck, hpeers, hroll, -⟩ := UpgradeAnchor.Job.run_ok hdone
  rw [reached, UpgradeAnchor.Job.upgraded_eq htarget hcheck hpeers hroll, List.mem_map]
  have hmem : ∀ p, p ∈ (j.upgrade files).leaderFirst sorted ↔ p ∈ sorted := by
    intro p
    simp only [VersionUpgrade.Upgrade.leaderFirst, List.mem_append, List.mem_filter, decide_eq_true_eq]
    tauto
  constructor
  · rintro ⟨⟨name, used⟩, hp, rfl⟩
    obtain ⟨info, hinfo, hused⟩ := (mem_sortedPeers hpeers).mp ((hmem _).mp hp)
    have hget := OrderedMap.mem_entries.mp hinfo
    by_cases hname : name = j.nodeName
    · subst hname
      exact .inr ⟨⟨info, used, hget, hused⟩, if_pos rfl⟩
    · refine .inl ⟨name, info, hget, hname, ?_⟩
      rw [UpgradeAnchor.Job.daemonIp, if_neg hname]
      exact hused
  · rintro (⟨name, info, hinfo, hname, hused⟩ | ⟨⟨info, used, hinfo, hused⟩, rfl⟩)
    · have hp := (mem_sortedPeers hpeers).mpr ⟨info, OrderedMap.mem_entries.mpr hinfo, hused⟩
      exact ⟨(name, ip), (hmem _).mpr hp, if_neg hname⟩
    · have hp := (mem_sortedPeers hpeers).mpr ⟨info, OrderedMap.mem_entries.mpr hinfo, hused⟩
      exact ⟨(j.nodeName, used), (hmem _).mpr hp, if_pos rfl⟩

theorem mem_reached {f : FanOut} (hdone : f.Done) {ip : String} :
    ip ∈ f.reached ↔ f.Mirrored ip ∨ f.ReachesSelf ∧ ip = f.localIp := by
  cases f with
  | rotateToken j localIp running files rpc self =>
      rw [mem_reached_rotation hdone]
      exact or_congr_right (iff_and_self.mpr fun _ => trivial)
  | versionUpgrade j self rpc put files anchor => exact mem_reached_upgrade hdone

/-- A job that ends done has reached the topology if and only if its mirror held
every ip of it, and itself where the job needs that. -/
theorem reaches_iff {f : FanOut} (kv : OrderedMap String String) (hdone : f.Done) :
    (f.localIp ∈ f.reached ∧ ∀ name info ip, (contents kv).get name = some info →
      usedIp info = some ip → ip ∈ f.reached) ↔ f.MirrorSuffices kv := by
  have hself : f.localIp ∈ f.reached ↔ f.ReachesSelf ∨ f.Mirrored f.localIp := by
    rw [mem_reached hdone]
    simp [or_comm]
  unfold MirrorSuffices
  rw [hself]
  refine and_congr_right fun hreach => ?_
  have hip : ∀ ip, ip ∈ f.reached ↔ f.Mirrored ip ∨ ip = f.localIp := by
    intro ip
    by_cases hlocal : ip = f.localIp
    · subst hlocal
      simpa [hself] using hreach
    · simp [mem_reached hdone, hlocal]
  simp only [hip]

def entryText (ip : String) : String := "\x7b\"ip\": \"" ++ ip ++ "\"\x7d"

/-- A topology of two of the three peers. -/
def twoEntries : OrderedMap String String :=
  OrderedMap.empty.putAll [("/cluster/topology/peers/node-1", entryText "10.0.0.1"),
    ("/cluster/topology/peers/node-2", entryText "10.0.0.2")]

end FanOut
end MilvusOnprem.JobCoverage
