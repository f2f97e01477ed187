import MilvusOnprem.OrderedPeers
import MilvusOnprem.TopologyWatcher
import MilvusOnprem.EnvFile

/-!
# The rolling version upgrade

`run_version_upgrade` on the leader: the checks on the target, the order of the
peers, and the loop that stops at the first peer that fails. What the upgrade of
one peer comes to is an input, for the leader's own `upgrade_self` and for the
request to every other peer. The anchor that is refreshed at the end is left
out: a failure of that write is only logged. Log and progress are left out too.
-/
namespace MilvusOnprem.VersionUpgrade

open PythonText OrderedPeers EnvFile TopologyWatcher

/-- `^v\d+\.\d+\.\d+$` -/
def isVersion (target : String) : Bool :=
  match dropFinalNewline target.toList with
  | 'v' :: rest =>
      let parts := rest.splitOn '.'
      parts.length = 3 && parts.all fun part => (parseDigits part).isSome
  | _ => false

def isDecimal (c : Char) : Bool := (decimalDigit c).isSome

/-- `_major_minor`: the group of `^v?(\d+\.\d+)`. -/
def majorMinor (tag : String) : Option String :=
  let cs := match tag.toList with
    | 'v' :: rest => rest
    | cs => cs
  let major := cs.takeWhile isDecimal
  match cs.dropWhile isDecimal with
  | '.' :: rest =>
      let minor := rest.takeWhile isDecimal
      if major = [] ∨ minor = [] then none else some (String.ofList (major ++ '.' :: minor))
  | _ => none

/-- The leader's config and mirror, its leader flag, its `cluster.env`, and the
job's parameter. -/
structure Upgrade where
  nodeName : String
  localIp : String
  isLeader : Bool
  mirror : Mirror
  file : Lines
  milvusVersion : Option String

namespace Upgrade

def badVersion (target : String) : Exc :=
  .valueError ("invalid version " ++ PythonText.repr target ++ " — expected vMAJOR.MINOR.PATCH " ++
    "(e.g. v2.5.5)")

def crossMajor (current target : String) : Exc :=
  .valueError ("refusing cross-major upgrade " ++ current ++ " -> " ++ target ++ ". " ++
    "Use backup -> teardown -> re-init at the new version, " ++
    "then restore. In-place upgrade is supported only within " ++
    "the same major.minor (e.g. v2.5.4 -> v2.5.5).")

/-- Whether the current tag rules the target out. -/
def refuses (current target : String) : Bool :=
  match majorMinor current, majorMinor target with
  | some a, some b => a ≠ b
  | _, _ => false

/-- The checks before the first peer is upgraded. -/
def check (u : Upgrade) : Except Exc String :=
  match u.milvusVersion with
  | none => .error (.valueError "version-upgrade requires 'milvus_version' param")
  | some target =>
      if target = "" then .error (.valueError "version-upgrade requires 'milvus_version' param")
      else if isVersion target = false then .error (badVersion target)
      else if u.isLeader = false then
        .error (.permissionError "version-upgrade must run on the leader (HTTP layer should redirect)")
      else
        let current := readValue MILVUS_IMAGE_TAG "" u.file
        if current ≠ "" ∧ current ≠ target ∧ refuses current target then
          .error (crossMajor current target)
        else .ok target

/-- The stable sort that moves the leader to the front. -/
def leaderFirst (u : Upgrade) (sorted : List (String × String)) : List (String × String) :=
  sorted.filter (fun p => p.1 = u.nodeName) ++ sorted.filter fun p => p.1 ≠ u.nodeName

/-- The loop over the peers: the ips whose daemons were upgraded, in order, and
how the loop ends. -/
def rollout (u : Upgrade) (self : Except Exc Unit) (remote : String × String → Except Exc Unit) :
    List (String × String) → List String × Except Exc Unit
  | [] => ([], .ok ())
  | p :: rest =>
      let ip := if p.1 = u.nodeName then u.localIp else p.2
      match if p.1 = u.nodeName then self else remote p with
      | .error e => ([], .error e)
      | .ok () =>
          let x := u.rollout self remote rest
          (ip :: x.1, x.2)

/-- `run_version_upgrade` -/
def run (u : Upgrade) (self : Except Exc Unit) (remote : String × String → Except Exc Unit) :
    List String × Except Exc Unit :=
  match u.check with
  | .error e => ([], .error e)
  | .ok _ =>
      match sortedPeers u.mirror.entries with
      | .error e => ([], .error e)
      | .ok sorted => u.rollout self remote (u.leaderFirst sorted)

theorem check_ok {u : Upgrade} {target : String} (h : u.check = .ok target) :
    isVersion target = true ∧ u.milvusVersion = some target := by
  unfold check at h
  cases hv : u.milvusVersion with
  | none =>
      rw [hv] at h
      cases h
  | some version =>
      rw [hv] at h
      dsimp only at h
      split_ifs at h with hempty hversion hleader hcross
      cases h
      exact ⟨by simpa using hversion, rfl⟩

/-- A loop that ends done has gone through all its peers. -/
theorem rollout_ok {u : Upgrade} {self : Except Exc Unit}
    {remote : String × String → Except Exc Unit} {peers : List (String × String)}
    (h : (u.rollout self remote peers).2 = .ok ()) :
    (u.rollout self remote peers).1 =
      peers.map fun p => if p.1 = u.nodeName then u.localIp else p.2 := by
  induction peers with
  | nil => rfl
  | cons p rest ih =>
      unfold rollout at h ⊢
      simp only at h ⊢
      split at h
      · cases h
      · rw [List.map_cons, ← ih h]

end Upgrade

end MilvusOnprem.VersionUpgrade
