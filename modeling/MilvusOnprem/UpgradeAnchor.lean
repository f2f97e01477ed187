import MilvusOnprem.ImageTag
import MilvusOnprem.TokenRotation
import MilvusOnprem.MigratePulsar

/-!
# The files and the anchor after an upgrade

`run_version_upgrade` over the `cluster.env` of every peer and the anchor
`/cluster/milvus_version`. What becomes of the upgrade of each peer and of the
final PUT are inputs of a run: an upgrade that fails may have rewritten the file,
and a PUT that fails may have been executed. Log and progress are left out.
-/
namespace MilvusOnprem.UpgradeAnchor

open PythonText OrderedPeers EnvFile TopologyWatcher VersionUpgrade ImageTag
open TokenRotation (SelfRun)
open MigratePulsar (Files)

/-- The leader's config, flag and mirror, and the parameter of the job. -/
structure Job where
  nodeName : String
  localIp : String
  listenPort : ℕ
  isLeader : Bool
  mirror : Mirror
  milvusVersion : Option String

/-- What happens to a request of the leader: it does not arrive, its answer is
lost, it is not answered with 200, the answer is no JSON, or it is answered. -/
inductive Rpc where
  | dropped (err : String)
  | lost (i : SelfRun) (err : String)
  | refused (status : ℕ) (text : String)
  | garbled (i : SelfRun) (text : String)
  | answered (i : SelfRun)
deriving DecidableEq, Repr

/-- The final PUT is answered, or it raises and was executed or not. -/
inductive Put where
  | answered
  | raised (executed : Bool)
deriving DecidableEq, Repr

def Put.lands : Put → Bool
  | .answered => true
  | .raised executed => executed

/-- `upgrade_self`: `sed` fails on a target with a line break. -/
def upgradeSelf (target : String) (lines : Lines) : SelfRun → Lines × Except String Unit
  | .unwritten err => (lines, .error err)
  | .written err =>
      if '\n' ∈ target.toList then (lines, .error err) else (sedTag target lines, .error err)
  | .works =>
      if '\n' ∈ target.toList then (lines, .error "sed cluster.env failed (rc=1)")
      else (sedTag target lines, .ok ())

/-- `_upgrade_remote` -/
def upgradeRemote (listenPort : ℕ) (target ip : String) (lines : Lines) :
    Rpc → Lines × Except Exc Unit
  | .dropped err => (lines, .error (.runtimeError
      ("POST http://" ++ ip ++ ":" ++ toString listenPort ++ "/upgrade-self failed: " ++ err)))
  | .lost i err => ((upgradeSelf target lines i).1, .error (.runtimeError
      ("POST http://" ++ ip ++ ":" ++ toString listenPort ++ "/upgrade-self failed: " ++ err)))
  | .refused status text => (lines, .error (.runtimeError
      (ip ++ " /upgrade-self returned " ++ toString status ++ ": " ++ prefixOf 500 text)))
  | .garbled i text => ((upgradeSelf target lines i).1, .error (.runtimeError
      (ip ++ " /upgrade-self bad JSON: " ++ prefixOf 200 text)))
  | .answered i =>
      match upgradeSelf target lines i with
      | (lines', .ok ()) => (lines', .ok ())
      | (lines', .error err) => (lines', .error (.runtimeError (ip ++ " upgrade failed: " ++ err)))

namespace Job

def upgrade (j : Job) (files : Files) : Upgrade :=
  ⟨j.nodeName, j.localIp, j.isLeader, j.mirror, files j.localIp, j.milvusVersion⟩

/-- Where the daemon of a peer runs. -/
def daemonIp (j : Job) (p : String × String) : String :=
  if p.1 = j.nodeName then j.localIp else p.2

/-- The upgrade of one peer. -/
def visit (j : Job) (target : String) (self : SelfRun) (rpc : String × String → Rpc)
    (p : String × String) (lines : Lines) : Lines × Except Exc Unit :=
  if p.1 = j.nodeName then
    let x := upgradeSelf target lines self
    (x.1, x.2.mapError .runtimeError)
  else upgradeRemote j.listenPort target p.2 lines (rpc p)

/-- The loop over the peers. -/
def rollout (j : Job) (target : String) (self : SelfRun) (rpc : String × String → Rpc) :
    List (String × String) → Files → Files × Except Exc Unit
  | [], files => (files, .ok ())
  | p :: rest, files =>
      let x := j.visit target self rpc p (files (j.daemonIp p))
      let files' := Function.update files (j.daemonIp p) x.1
      match x.2 with
      | .error e => (files', .error e)
      | .ok () => j.rollout target self rpc rest files'

/-- What the job leaves: the files, the anchor, and how it ends. -/
structure Outcome where
  files : Files
  anchor : Option String
  result : Except Exc Unit

/-- `run_version_upgrade` -/
def run (j : Job) (self : SelfRun) (rpc : String × String → Rpc) (put : Put) (files : Files)
    (anchor : Option String) : Outcome :=
  match (j.upgrade files).check with
  | .error e => ⟨files, anchor, .error e⟩
  | .ok target =>
      match sortedPeers j.mirror.entries with
      | .error e => ⟨files, anchor, .error e⟩
      | .ok sorted =>
          match j.rollout target self rpc ((j.upgrade files).leaderFirst sorted) files with
          | (files', .error e) => ⟨files', anchor, .error e⟩
          -- a failed PUT is only logged
          | (files', .ok ()) => ⟨files', if put.lands then some target else anchor, .ok ()⟩

/-- How the upgrade of a peer ends, whatever its file holds. -/
def ends (j : Job) (target : String) (self : SelfRun) (rpc : String × String → Rpc)
    (p : String × String) : Except Exc Unit :=
  (j.visit target self rpc p []).2

/-- The ips of the daemons that the job has upgraded. -/
def upgraded (j : Job) (self : SelfRun) (rpc : String × String → Rpc) (files : Files) :
    List String :=
  let target := j.milvusVersion.getD ""
  ((j.upgrade files).run (j.ends target self rpc (j.nodeName, ""))
    (j.ends target self rpc)).1

end Job

/-- The anchor is the target, every upgraded peer has the tag, and the guard
refuses none of them. -/
structure Agrees (target : String) (upgraded : List String) (x : Job.Outcome) : Prop where
  anchor : x.anchor = some target
  tags : ∀ ip ∈ upgraded, imageTag (x.files ip) = target
  accepted : ∀ ip ∈ upgraded, ∀ p : Probe, p.output = anchorOutput x.anchor ∨ p.output = [] →
    refuses p (imageTag (x.files ip)) = false

/-! ## The loop -/

theorem upgradeSelf_result (target : String) (lines lines' : Lines) (i : SelfRun) :
    (upgradeSelf target lines i).2 = (upgradeSelf target lines' i).2 := by
  cases i with
  | unwritten err => rfl
  | written err =>
      unfold upgradeSelf
      split_ifs <;> rfl
  | works =>
      unfold upgradeSelf
      split_ifs <;> rfl

/-- An upgrade that works has edited the file. -/
theorem upgradeSelf_ok {target : String} {lines : Lines} {i : SelfRun}
    (h : (upgradeSelf target lines i).2 = .ok ()) :
    '\n' ∉ target.toList ∧ (upgradeSelf target lines i).1 = sedTag target lines := by
  cases i with
  | unwritten err => cases h
  | written err =>
      unfold upgradeSelf at h
      split_ifs at h
  | works =>
      unfold upgradeSelf at h ⊢
      split_ifs at h ⊢ with hline
      exact ⟨hline, rfl⟩

namespace Job

variable {j : Job} {target : String} {self : SelfRun} {rpc : String × String → Rpc}
  {p : String × String}

theorem visit_result (lines lines' : Lines) :
    (j.visit target self rpc p lines).2 = (j.visit target self rpc p lines').2 := by
  unfold visit
  split_ifs
  · dsimp only
    rw [upgradeSelf_result target lines lines']
  · cases rpc p with
    | answered i =>
        have hresult := upgradeSelf_result target lines lines' i
        unfold upgradeRemote
        dsimp only
        split <;> split <;> simp_all
    | _ => rfl

theorem visit_ok {lines : Lines} (h : (j.visit target self rpc p lines).2 = .ok ()) :
    '\n' ∉ target.toList ∧ (j.visit target self rpc p lines).1 = sedTag target lines := by
  unfold visit at h ⊢
  split_ifs at h ⊢ with hname
  · dsimp only at h ⊢
    apply upgradeSelf_ok (i := self)
    cases hself : (upgradeSelf target lines self).2 with
    | error e =>
        rw [hself] at h
        cases h
    | ok u => rfl
  · cases hrpc : rpc p with
    | answered i =>
        rw [hrpc] at h
        unfold upgradeRemote at h ⊢
        dsimp only at h ⊢
        split at h
        · next lines' hself =>
            have hok : (upgradeSelf target lines i).2 = .ok () := by rw [hself]
            have hedit := upgradeSelf_ok hok
            rw [hself] at hedit
            exact hedit
        · cases h
    | _ =>
        rw [hrpc] at h
        cases h

/-- The loop ends as the loop over the results of the peers does. -/
theorem rollout_result (u : Upgrade) (hname : u.nodeName = j.nodeName) (peers : List (String × String))
    (files : Files) : (j.rollout target self rpc peers files).2 =
      (u.rollout (j.ends target self rpc (j.nodeName, "")) (j.ends target self rpc) peers).2 := by
  induction peers generalizing files with
  | nil => rfl
  | cons p rest ih =>
      have hends : (j.visit target self rpc p (files (j.daemonIp p))).2 =
          if p.1 = u.nodeName then j.ends target self rpc (j.nodeName, "") else
            j.ends target self rpc p := by
        rw [visit_result _ [], hname]
        split_ifs with hp
        · simp only [ends, visit, hp, if_true]
        · rfl
      unfold rollout Upgrade.rollout
      dsimp only
      rw [← hends]
      cases (j.visit target self rpc p (files (j.daemonIp p))).2 with
      | error e => rfl
      | ok u => exact ih _

theorem sedTag_sedTag (target : String) (lines : Lines) :
    sedTag target (sedTag target lines) = sedTag target lines := by
  rw [sedTag, sedTag, List.map_map]
  apply List.map_congr_left
  intro line _
  by_cases hline : MILVUS_IMAGE_TAG.isLine line = true
  · simp [sedLine, hline]
  · simp [sedLine, hline]

/-- A loop that ends done has edited the files of its peers and no others. -/
theorem rollout_files {peers : List (String × String)} {files : Files}
    (h : (j.rollout target self rpc peers files).2 = .ok ()) (ip : String) :
    (j.rollout target self rpc peers files).1 ip =
      if ip ∈ peers.map j.daemonIp then sedTag target (files ip) else files ip := by
  induction peers generalizing files with
  | nil => rfl
  | cons p rest ih =>
      unfold rollout at h ⊢
      dsimp only at h ⊢
      cases hvisit : (j.visit target self rpc p (files (j.daemonIp p))).2 with
      | error e =>
          rw [hvisit] at h
          cases h
      | ok u =>
          rw [hvisit] at h
          dsimp only at h ⊢
          rw [ih h, (visit_ok hvisit).2]
          by_cases hip : ip = j.daemonIp p
          · simp [hip, sedTag_sedTag]
          · simp only [Function.update_of_ne hip, List.map_cons, List.mem_cons, hip, false_or]

theorem rollout_line {peers : List (String × String)} {files : Files}
    (h : (j.rollout target self rpc peers files).2 = .ok ()) (hne : peers ≠ []) :
    '\n' ∉ target.toList := by
  cases peers with
  | nil => exact absurd rfl hne
  | cons p rest =>
      unfold rollout at h
      dsimp only at h
      cases hvisit : (j.visit target self rpc p (files (j.daemonIp p))).2 with
      | error e =>
          rw [hvisit] at h
          cases h
      | ok u => exact (visit_ok hvisit).1

/-- What a job that ends done has found: its target, its peers, and the loop. -/
theorem run_ok {put : Put} {files : Files} {anchor : Option String}
    (h : (j.run self rpc put files anchor).result = .ok ()) :
    ∃ target sorted, j.milvusVersion = some target ∧ isVersion target = true ∧
      (j.upgrade files).check = .ok target ∧ sortedPeers j.mirror.entries = .ok sorted ∧
      (j.rollout target self rpc ((j.upgrade files).leaderFirst sorted) files).2 = .ok () ∧
      j.run self rpc put files anchor =
        ⟨(j.rollout target self rpc ((j.upgrade files).leaderFirst sorted) files).1,
          if put.lands then some target else anchor, .ok ()⟩ := by
  unfold run at h ⊢
  cases hcheck : (j.upgrade files).check with
  | error e =>
      rw [hcheck] at h
      cases h
  | ok target =>
      rw [hcheck] at h
      dsimp only at h ⊢
      cases hpeers : sortedPeers j.mirror.entries with
      | error e =>
          rw [hpeers] at h
          cases h
      | ok sorted =>
          rw [hpeers] at h
          dsimp only at h ⊢
          rcases hroll : j.rollout target self rpc ((j.upgrade files).leaderFirst sorted) files with
            ⟨files', e | u⟩
          · rw [hroll] at h
            cases h
          · obtain ⟨hversion, htarget⟩ := Upgrade.check_ok hcheck
            exact ⟨target, sorted, htarget, hversion, rfl, rfl, by rw [hroll], by rw [hroll]⟩

/-- The upgraded daemons are those of the peers that the loop has gone through. -/
theorem upgraded_eq {files : Files} {sorted : List (String × String)}
    (htarget : j.milvusVersion = some target) (hcheck : (j.upgrade files).check = .ok target)
    (hpeers : sortedPeers j.mirror.entries = .ok sorted)
    (hroll : (j.rollout target self rpc ((j.upgrade files).leaderFirst sorted) files).2 = .ok ()) :
    j.upgraded self rpc files = ((j.upgrade files).leaderFirst sorted).map j.daemonIp := by
  rw [rollout_result (j.upgrade files) rfl] at hroll
  have hok := Upgrade.rollout_ok hroll
  simp only [upgraded, htarget, Option.getD_some, Upgrade.run, hcheck]
  rw [show (j.upgrade files).mirror = j.mirror from rfl, hpeers]
  exact hok

end Job

/-- After an upgrade that ends done, the anchor and the tags of the upgraded peers
agree if and only if the final PUT was executed or the anchor was the target, and
the file of every upgraded peer can be rewritten. -/
theorem agrees_iff {j : Job} {target : String} {self : SelfRun} {rpc : String × String → Rpc}
    {put : Put} {files : Files} {anchor : Option String} (htarget : j.milvusVersion = some target)
    (hdone : (j.run self rpc put files anchor).result = .ok ()) :
    Agrees target (j.upgraded self rpc files) (j.run self rpc put files anchor) ↔
      (put.lands = true ∨ anchor = some target) ∧
        ∀ ip ∈ j.upgraded self rpc files, Rewritable target (files ip) := by
  obtain ⟨target', sorted, htarget', hversion, hcheck, hpeers, hroll, hrun⟩ := Job.run_ok hdone
  cases htarget.symm.trans htarget'
  have hupgraded := Job.upgraded_eq htarget hcheck hpeers hroll
  rw [hrun, hupgraded]
  have hfiles : ∀ ip ∈ ((j.upgrade files).leaderFirst sorted).map j.daemonIp,
      '\n' ∉ target.toList ∧
        (j.rollout target self rpc ((j.upgrade files).leaderFirst sorted) files).1 ip =
          sedTag target (files ip) := by
    intro ip hip
    have hne : (j.upgrade files).leaderFirst sorted ≠ [] := by
      intro he
      rw [he] at hip
      cases hip
    exact ⟨Job.rollout_line hroll hne, by rw [Job.rollout_files hroll, if_pos hip]⟩
  have htags : ∀ ip ∈ ((j.upgrade files).leaderFirst sorted).map j.daemonIp,
      (imageTag ((j.rollout target self rpc ((j.upgrade files).leaderFirst sorted) files).1 ip) =
        target ↔ Rewritable target (files ip)) := by
    intro ip hip
    obtain ⟨hline, hfile⟩ := hfiles ip hip
    rw [hfile]
    exact imageTag_sedTag (plain_of_isVersion hversion hline) (files ip)
  have hanchor : (if put.lands then some target else anchor) = some target ↔
      put.lands = true ∨ anchor = some target := by
    by_cases hput : put.lands = true
    · simp [hput]
    · simp [hput]
  constructor
  · intro h
    exact ⟨hanchor.mp h.anchor, fun ip hip => (htags ip hip).mp (h.tags ip hip)⟩
  · rintro ⟨hput, hfits⟩
    refine ⟨hanchor.mpr hput, fun ip hip => (htags ip hip).mpr (hfits ip hip), ?_⟩
    intro ip hip p hp
    dsimp only at hp ⊢
    rw [(htags ip hip).mpr (hfits ip hip)]
    rw [hanchor.mpr hput] at hp
    exact refuses_anchor (hfiles ip hip).1 hp

/-! ## Two upgrades -/

/-- `node-1` upgrades a cluster of two. -/
def twoPeers : Job where
  nodeName := "node-1"
  localIp := "10.0.0.1"
  listenPort := 19500
  isLeader := true
  mirror := OrderedMap.empty.putAll [("node-1", .obj [("ip", .str "10.0.0.1")]),
    ("node-2", .obj [("ip", .str "10.0.0.2")])]
  milvusVersion := some "v2.5.5"

def reachable : String × String → Rpc := fun _ => .answered .works

/-- Both files have the tag, one of them in an old line too. -/
def taggedFiles : Files := fun ip =>
  if ip = "10.0.0.1" then ["MILVUS_IMAGE_TAG=v2.5.4"]
  else [" export MILVUS_IMAGE_TAG=v2.5.3", "MILVUS_IMAGE_TAG=v2.5.4"]

theorem agrees_iff_tagged : Agrees "v2.5.5" (twoPeers.upgraded .works reachable taggedFiles)
    (twoPeers.run .works reachable .answered taggedFiles (some "v2.5.4")) := by
  have hdone : (twoPeers.run .works reachable .answered taggedFiles (some "v2.5.4")).result =
      .ok () := by
    decide +kernel
  refine (agrees_iff rfl hdone).mpr ⟨.inl rfl, ?_⟩
  have hfits : ∀ ip ∈ twoPeers.upgraded .works reachable taggedFiles,
      (lastAssignment (taggedFiles ip)).any MILVUS_IMAGE_TAG.isLine = true := by
    decide +kernel
  exact fun ip hip => .inl (hfits ip hip)

/-- The file of `node-2` exports its tag: the job ends done, and `node-2` keeps the
old tag, which the guard refuses. -/
def exportedFiles : Files := fun ip =>
  if ip = "10.0.0.1" then ["MILVUS_IMAGE_TAG=v2.5.4"] else ["export MILVUS_IMAGE_TAG=v2.5.4"]

theorem exported_tag_kept :
    (twoPeers.run .works reachable .answered exportedFiles (some "v2.5.4")).result = .ok () ∧
      ¬Agrees "v2.5.5" (twoPeers.upgraded .works reachable exportedFiles)
        (twoPeers.run .works reachable .answered exportedFiles (some "v2.5.4")) := by
  refine ⟨by decide +kernel, fun h => ?_⟩
  have htag := h.tags "10.0.0.2" (by decide +kernel)
  revert htag
  decide +kernel

end MilvusOnprem.UpgradeAnchor
