import MilvusOnprem.OrderedPeers
import MilvusOnprem.TopologyWatcher
import MilvusOnprem.EnvFile

/-!
# Rotating the cluster token

`run_rotate_token` on the leader and `/rotate-self` on the followers. A daemon
compares every bearer token with the one its container was created with. The
recreate that `rotate_self` schedules counts as done when it returns, since a
run asks nothing more of that daemon. The leader's requests run in parallel and
reach different daemons, so their order is left out. What the commands of a
daemon do is an input. The job's log and progress are left out.
-/
namespace MilvusOnprem.TokenRotation

open PythonText OrderedPeers EnvFile TopologyWatcher

/-! ## Authentication -/

/-- The status and the detail of an `HTTPException`. -/
structure HttpError where
  status : ℕ
  detail : String
deriving DecidableEq, Repr

def isAscii (s : String) : Bool := s.toList.all fun c => c.toNat < 128

/-- `require_token`; `compare_digest` raises on a text outside ASCII. -/
def requireToken (authorization : Option String) (expected : String) : Except HttpError Unit :=
  match authorization with
  | none => .error ⟨401, "missing bearer token"⟩
  | some header =>
      if ¬ startsWith (lower header) "bearer " then .error ⟨401, "missing bearer token"⟩
      else
        match partition ' ' header with
        | none => .error ⟨401, "missing bearer token"⟩
        | some (_, rest) =>
            if ¬ (isAscii (strip rest) ∧ isAscii expected) then .error ⟨500, "Internal Server Error"⟩
            else if strip rest = expected then .ok ()
            else .error ⟨403, "invalid token"⟩

/-- `f"Bearer {token}"` -/
def bearer (token : String) : String := "Bearer " ++ token

/-- A request is accepted when its trimmed token is the one the daemon runs with. -/
theorem requireToken_bearer (token expected : String) :
    requireToken (some (bearer token)) expected = .ok () ↔
      strip token = expected ∧ isAscii expected = true := by
  have hlower : startsWith (lower (bearer token)) "bearer " = true := by
    have hb : (lower (bearer token)).toList = "bearer ".toList ++ token.toList.map lowerChar := by
      simp only [lower, bearer, String.toList_ofList, String.toList_append, List.map_append]
      rfl
    rw [startsWith, hb, List.isPrefixOf_iff_prefix]
    exact List.prefix_append _ _
  have hsplit : partition ' ' (bearer token) = some ("Bearer", token) := by
    have hl : (bearer token).toList = "Bearer".toList ++ ' ' :: token.toList := by
      simp only [bearer, String.toList_append]
      rfl
    have htake : (bearer token).toList.takeWhile (fun c => c ≠ ' ') = "Bearer".toList := by
      rw [hl, List.takeWhile_append_of_pos (by decide)]
      simp
    have hdrop : (bearer token).toList.dropWhile (fun c => c ≠ ' ') = ' ' :: token.toList := by
      rw [hl, List.dropWhile_append_of_pos (by decide)]
      simp
    rw [partition, if_pos (by rw [hl]; simp), htake, hdrop]
    simp
  simp only [requireToken, hlower, hsplit, not_true_eq_false, if_false]
  by_cases heq : strip token = expected
  · subst heq
    by_cases hascii : isAscii (strip token) = true <;> simp [hascii]
  · by_cases hascii : isAscii (strip token) = true ∧ isAscii expected = true <;> simp [heq, hascii]

/-! ## A daemon rotates itself -/

/-- A daemon: its `cluster.env` and the token its container was created with. -/
structure Daemon where
  file : Lines
  running : String
deriving DecidableEq

/-- What the steps of `rotate_self` meet: the file cannot be rewritten; a later
step raises (the render, the look for the node's name or its compose file, the
start of the sidecar); everything works. -/
inductive SelfRun where
  | unwritten (err : String)
  | written (err : String)
  | works
deriving DecidableEq, Repr

/-- `rotate_self`; the error is the type and the text of the exception. -/
def rotateSelf (newToken : String) (d : Daemon) : SelfRun → Daemon × Except String Unit
  | .unwritten err => (d, .error err)
  | .written err => ({ d with file := upsertKv CLUSTER_TOKEN newToken d.file }, .error err)
  | .works => (⟨upsertKv CLUSTER_TOKEN newToken d.file, newToken⟩, .ok ())

/-- `POST /rotate-self`: the body's `error` field, behind the token check. -/
def postRotateSelf (authorization : Option String) (newToken : String) (d : Daemon)
    (i : SelfRun) : Daemon × Except HttpError (Option String) :=
  match requireToken authorization d.running with
  | .error e => (d, .error e)
  | .ok () =>
      match rotateSelf newToken d i with
      | (d', .ok ()) => (d', .ok none)
      | (d', .error err) => (d', .ok (some err))

/-- What happens to a request of the leader: it does not arrive, its answer is
lost, or it is answered. -/
inductive Rpc where
  | dropped (err : String)
  | lost (i : SelfRun) (err : String)
  | answered (i : SelfRun)
deriving DecidableEq, Repr

/-- `_rotate_remote` for a peer at an ip. -/
def rotateRemote (listenPort : ℕ) (clusterToken newToken ip : String) (d : Daemon) :
    Rpc → Daemon × Except Exc Unit
  | .dropped err => (d, .error (.runtimeError
      ("POST http://" ++ ip ++ ":" ++ toString listenPort ++ "/rotate-self failed: " ++ err)))
  | .lost i err =>
      ((postRotateSelf (some (bearer clusterToken)) newToken d i).1, .error (.runtimeError
        ("POST http://" ++ ip ++ ":" ++ toString listenPort ++ "/rotate-self failed: " ++ err)))
  | .answered i =>
      match postRotateSelf (some (bearer clusterToken)) newToken d i with
      | (d', .error e) => (d', .error (.runtimeError (ip ++ " /rotate-self returned " ++
          toString e.status ++ ": " ++
          prefixOf 300 (JsonText.dumps (.obj [("detail", .str e.detail)])))))
      | (d', .ok (some err)) => (d', .error (.runtimeError (ip ++ " rotate failed: " ++ err)))
      | (d', .ok none) => (d', .ok ())

/-! ## The job -/

/-- The leader's config and mirror, its leader flag, and the job's parameter. -/
structure Rotation where
  nodeName : String
  listenPort : ℕ
  isLeader : Bool
  mirror : Mirror
  newToken : Option String

/-- The daemons of a cluster: the leader's and, for every peer, the one at it. -/
structure Daemons where
  leader : Daemon
  peer : String × String → Daemon

/-- How the job fails: it raises, or the leader's own rotation does. -/
inductive Failure where
  | raised (e : Exc)
  | self (err : String)
deriving DecidableEq, Repr

def halfRotated (failures : ℕ) : Exc :=
  .runtimeError (toString failures ++ " follower(s) failed to rotate; " ++
    "cluster left half-rotated. Re-run with the same " ++
    "--new-token to retry.")

namespace Rotation

/-- `follower_peers` out of the sorted peers. -/
def followersOf (j : Rotation) (sorted : List (String × String)) : List (String × String) :=
  sorted.filter fun p => p.1 ≠ j.nodeName

/-- The request to one follower. -/
def remote (j : Rotation) (newToken : String) (ds : Daemons) (rpc : String × String → Rpc)
    (p : String × String) : Daemon × Except Exc Unit :=
  rotateRemote j.listenPort ds.leader.running newToken p.2 (ds.peer p) (rpc p)

/-- `isinstance(r, Exception)` -/
def isFailure : Except Exc Unit → Bool
  | .ok () => false
  | .error _ => true

/-- The daemons after the fan-out. -/
def fanOut (j : Rotation) (newToken : String) (ds : Daemons) (rpc : String × String → Rpc)
    (followers : List (String × String)) : Daemons :=
  ⟨ds.leader, fun p => if p ∈ followers then (j.remote newToken ds rpc p).1 else ds.peer p⟩

/-- The two steps of `run_rotate_token` over the sorted peers. -/
def rotate (j : Rotation) (newToken : String) (ds : Daemons) (rpc : String × String → Rpc)
    (self : SelfRun) (sorted : List (String × String)) : Daemons × Except Failure Unit :=
  let followers := j.followersOf sorted
  let ds' := j.fanOut newToken ds rpc followers
  let failures := followers.filter fun p => isFailure (j.remote newToken ds rpc p).2
  if failures ≠ [] then (ds', .error (.raised (halfRotated failures.length)))
  else
    let x := rotateSelf newToken ds'.leader self
    (⟨x.1, ds'.peer⟩, x.2.mapError .self)

def badToken : Exc := .valueError "rotate-token requires 'new_token' param of >= 32 chars"

/-- `run_rotate_token` -/
def run (j : Rotation) (ds : Daemons) (rpc : String × String → Rpc) (self : SelfRun) :
    Daemons × Except Failure Unit :=
  match j.newToken with
  | none => (ds, .error (.raised badToken))
  | some newToken =>
      if newToken.length < 32 then (ds, .error (.raised badToken))
      else if j.isLeader = false then
        (ds, .error (.raised (.permissionError
          "rotate-token must run on the leader (HTTP layer should redirect)")))
      else
        match sortedPeers j.mirror.entries with
        | .error e => (ds, .error (.raised e))
        | .ok sorted => j.rotate newToken ds rpc self sorted

end Rotation

/-! ## What a request does -/

/-- The token the leader presents. -/
def presented (ds : Daemons) : String := strip ds.leader.running

theorem postRotateSelf_accepted {token newToken : String} {d : Daemon} (i : SelfRun)
    (h : requireToken (some (bearer token)) d.running = .ok ()) :
    (postRotateSelf (some (bearer token)) newToken d i).1 = (rotateSelf newToken d i).1 := by
  unfold postRotateSelf
  rw [h]
  cases i <;> rfl

theorem postRotateSelf_refused {token newToken : String} {d : Daemon} {e : HttpError} (i : SelfRun)
    (h : requireToken (some (bearer token)) d.running = .error e) :
    postRotateSelf (some (bearer token)) newToken d i = (d, .error e) := by
  unfold postRotateSelf
  rw [h]

/-- A daemon that refuses the request keeps its state, and one that accepts it
ends with its old token or with the new one. -/
theorem postRotateSelf_running (token newToken : String) (d : Daemon) (i : SelfRun) :
    (postRotateSelf (some (bearer token)) newToken d i).1.running = d.running ∨
      (postRotateSelf (some (bearer token)) newToken d i).1.running = newToken ∧
        strip token = d.running := by
  cases h : requireToken (some (bearer token)) d.running with
  | error e => exact .inl (by rw [postRotateSelf_refused i h])
  | ok u =>
      rw [postRotateSelf_accepted i h]
      cases i with
      | unwritten err => exact .inl rfl
      | written err => exact .inl rfl
      | works => exact .inr ⟨rfl, ((requireToken_bearer token d.running).mp h).1⟩

namespace Rotation

variable {j : Rotation} {newToken : String} {ds : Daemons} {rpc : String × String → Rpc}
  {p : String × String}

/-- A request leaves its daemon as `/rotate-self` does, if it arrives. -/
theorem remote_fst : (j.remote newToken ds rpc p).1 =
    match rpc p with
    | .dropped _ => ds.peer p
    | .lost i _ | .answered i =>
        (postRotateSelf (some (bearer ds.leader.running)) newToken (ds.peer p) i).1 := by
  unfold remote rotateRemote
  cases rpc p with
  | dropped err => rfl
  | lost i err => dsimp only
  | answered i =>
      dsimp only
      split <;> next hx => rw [hx]

theorem remote_running :
    (j.remote newToken ds rpc p).1.running = (ds.peer p).running ∨
      (j.remote newToken ds rpc p).1.running = newToken ∧
        presented ds = (ds.peer p).running := by
  rw [remote_fst]
  split
  · exact .inl rfl
  · exact postRotateSelf_running _ _ _ _
  · exact postRotateSelf_running _ _ _ _

/-- A request succeeds when it is answered, accepted, and everything works there. -/
theorem remote_ok : (j.remote newToken ds rpc p).2 = .ok () ↔
    rpc p = .answered .works ∧ presented ds = (ds.peer p).running ∧
      isAscii (ds.peer p).running = true := by
  have htoken := requireToken_bearer ds.leader.running (ds.peer p).running
  unfold remote rotateRemote
  cases rpc p with
  | dropped err => simp
  | lost i err => simp
  | answered i =>
      cases h : requireToken (some (bearer ds.leader.running)) (ds.peer p).running with
      | error e =>
          have hno := mt htoken.mpr (by rw [h]; simp)
          simp only [postRotateSelf_refused i h, reduceCtorEq, false_iff]
          exact fun hall => hno hall.2
      | ok u =>
          have hyes := htoken.mp h
          cases i <;> simp [postRotateSelf, h, rotateSelf, presented, hyes]

/-- The daemon of a request that succeeded has the new token, in its file and
running. -/
theorem remote_daemon (h : (j.remote newToken ds rpc p).2 = .ok ()) :
    (j.remote newToken ds rpc p).1 =
      ⟨upsertKv CLUSTER_TOKEN newToken (ds.peer p).file, newToken⟩ := by
  obtain ⟨hrpc, hsame, hascii⟩ := remote_ok.mp h
  have haccept := (requireToken_bearer ds.leader.running (ds.peer p).running).mpr ⟨hsame, hascii⟩
  rw [remote_fst, hrpc]
  exact postRotateSelf_accepted .works haccept

/-! ## Running it again -/

/-- The followers of a run. -/
def followers (j : Rotation) : List (String × String) :=
  match sortedPeers j.mirror.entries with
  | .error _ => []
  | .ok sorted => j.followersOf sorted

theorem rotate_of_failures {self : SelfRun} {sorted : List (String × String)} {n : ℕ}
    (h : (j.rotate newToken ds rpc self sorted).2 = .error (.raised (halfRotated n))) :
    (j.rotate newToken ds rpc self sorted).1 =
      j.fanOut newToken ds rpc (j.followersOf sorted) := by
  unfold rotate at h ⊢
  simp only at h ⊢
  split_ifs at h ⊢
  · rfl
  · cases self <;> simp [rotateSelf, Except.mapError] at h

/-- A run that leaves the cluster half-rotated got as far as the fan-out. -/
theorem run_halfRotated {self : SelfRun} {n : ℕ}
    (h : (j.run ds rpc self).2 = .error (.raised (halfRotated n))) :
    ∃ newToken sorted, j.newToken = some newToken ∧ ¬ newToken.length < 32 ∧
      j.isLeader = true ∧ sortedPeers j.mirror.entries = .ok sorted ∧
      (j.run ds rpc self).1 = j.fanOut newToken ds rpc (j.followersOf sorted) := by
  unfold run at h ⊢
  cases htoken : j.newToken with
  | none =>
      rw [htoken] at h
      cases h
  | some newToken =>
      simp only [htoken] at h
      split_ifs at h with hlen hleader
      · cases h
      · cases h
      rw [Bool.not_eq_false] at hleader
      cases hpeers : sortedPeers j.mirror.entries with
      | error e =>
          simp only [hpeers] at h
          rw [withIps_error hpeers] at h
          cases h
      | ok sorted =>
          simp only [hpeers] at h
          refine ⟨newToken, sorted, rfl, hlen, hleader, rfl, ?_⟩
          simp only [if_neg hlen, if_neg (by rw [hleader]; simp : ¬ j.isLeader = false)]
          exact rotate_of_failures h

/-- A fan-out that completes got an `ok` from every follower, and the leader's
own rotation worked. -/
theorem rotate_ok {self : SelfRun} {sorted : List (String × String)}
    (h : (j.rotate newToken ds rpc self sorted).2 = .ok ()) :
    (∀ p ∈ j.followersOf sorted, (j.remote newToken ds rpc p).2 = .ok ()) ∧ self = .works := by
  unfold rotate at h
  simp only at h
  split_ifs at h with hfail
  rw [not_not, List.filter_eq_nil_iff] at hfail
  constructor
  · intro p hp
    have hok := hfail p hp
    cases hres : (j.remote newToken ds rpc p).2 with
    | ok u => rfl
    | error e =>
        rw [hres] at hok
        exact absurd rfl hok
  · cases self with
    | works => rfl
    | unwritten err => cases h
    | written err => cases h

/-- A fan-out that completes leaves the new token in the file of the leader and
of every follower. -/
theorem rotate_files {self : SelfRun} {sorted : List (String × String)}
    (h : (j.rotate newToken ds rpc self sorted).2 = .ok ()) :
    valueOf CLUSTER_TOKEN (j.rotate newToken ds rpc self sorted).1.leader.file = some newToken ∧
      ∀ p ∈ j.followersOf sorted,
        valueOf CLUSTER_TOKEN ((j.rotate newToken ds rpc self sorted).1.peer p).file =
          some newToken := by
  obtain ⟨hremote, hself⟩ := rotate_ok h
  have hnone : ((j.followersOf sorted).filter
      fun p => isFailure (j.remote newToken ds rpc p).2) = [] := by
    rw [List.filter_eq_nil_iff]
    intro p hp
    rw [hremote p hp]
    exact Bool.false_ne_true
  unfold rotate
  simp only [hnone, hself, ne_eq, not_true_eq_false, if_false]
  refine ⟨valueOf_upsertKv_self _ _ _, fun p hp => ?_⟩
  simp only [fanOut, if_pos hp, remote_daemon (hremote p hp), valueOf_upsertKv_self]

/-- A run that completes went through the followers of the mirror. -/
theorem run_ok (j : Rotation) {self : SelfRun} (h : (j.run ds rpc self).2 = .ok ()) :
    ∃ newToken sorted, j.newToken = some newToken ∧ sortedPeers j.mirror.entries = .ok sorted ∧
      (∀ p ∈ j.followersOf sorted, (j.remote newToken ds rpc p).2 = .ok ()) ∧ self = .works := by
  unfold run at h
  cases htoken : j.newToken with
  | none =>
      simp only [htoken] at h
      cases h
  | some newToken =>
      simp only [htoken] at h
      split_ifs at h
      cases hpeers : sortedPeers j.mirror.entries with
      | error e =>
          simp only [hpeers] at h
          cases h
      | ok sorted =>
          simp only [hpeers] at h
          exact ⟨newToken, sorted, rfl, rfl, rotate_ok h⟩

/-- Every daemon answers, and everything works there. -/
def reachable : String × String → Rpc := fun _ => .answered .works

/-- A run in which every daemon is reachable completes, and leaves the new token
in the `cluster.env` of every peer. -/
def Recovers (j : Rotation) (ds : Daemons) : Prop :=
  (j.run ds reachable .works).2 = .ok () ∧
    ∀ newToken, j.newToken = some newToken →
      valueOf CLUSTER_TOKEN (j.run ds reachable .works).1.leader.file = some newToken ∧
      ∀ p ∈ j.followers,
        valueOf CLUSTER_TOKEN ((j.run ds reachable .works).1.peer p).file = some newToken

/-- A run over reachable daemons completes exactly when every follower accepts
the leader's token. -/
theorem rotate_reachable {sorted : List (String × String)} :
    (j.rotate newToken ds reachable .works sorted).2 = .ok () ↔
      ∀ p ∈ j.followersOf sorted, presented ds = (ds.peer p).running ∧
        isAscii (ds.peer p).running = true := by
  have hremote : ∀ p, isFailure (j.remote newToken ds reachable p).2 = false ↔
      presented ds = (ds.peer p).running ∧ isAscii (ds.peer p).running = true := by
    intro p
    have hok := @remote_ok j newToken ds reachable p
    rw [show reachable p = .answered .works from rfl] at hok
    cases hres : (j.remote newToken ds reachable p).2 with
    | ok u => simpa [isFailure] using hok.mp hres
    | error e =>
        rw [hres] at hok
        simp only [isFailure, reduceCtorEq, false_iff]
        exact fun hall => absurd (hok.mpr ⟨rfl, hall⟩) (by simp)
  unfold rotate
  simp only
  split_ifs with hfail
  · obtain ⟨p, hp⟩ := List.exists_mem_of_ne_nil _ hfail
    obtain ⟨hmem, hp⟩ := List.mem_filter.mp hp
    refine ⟨fun h => (by cases h), fun h => ?_⟩
    rw [(hremote p).mpr (h p hmem)] at hp
    cases hp
  · rw [not_not, List.filter_eq_nil_iff] at hfail
    refine ⟨fun _ p hp => (hremote p).mp (by simpa using hfail p hp), fun _ => rfl⟩

/-- After a run that some followers completed and others failed, the same run
over reachable daemons recovers the cluster if and only if the new token is the
one the leader already presents, and every follower ran with it before. -/
theorem retry_recovers_iff {j : Rotation} {ds : Daemons} {rpc : String × String → Rpc}
    {self : SelfRun} {n : ℕ} (hrun : (j.run ds rpc self).2 = .error (.raised (halfRotated n)))
    (hsome : ∃ p ∈ j.followers, ∀ newToken, j.newToken = some newToken →
      (j.remote newToken ds rpc p).2 = .ok ()) :
    j.Recovers (j.run ds rpc self).1 ↔
      j.newToken = some (presented ds) ∧ ∀ p ∈ j.followers, (ds.peer p).running = presented ds := by
  obtain ⟨newToken, sorted, htoken, hlen, hleader, hpeers, hds⟩ := run_halfRotated hrun
  have hfollowers : j.followers = j.followersOf sorted := by simp only [followers, hpeers]
  have hrerun : ∀ ds', j.run ds' reachable .works = j.rotate newToken ds' reachable .works sorted := by
    intro ds'
    simp only [run, htoken, hpeers, if_neg hlen, if_neg (by rw [hleader]; simp : ¬ j.isLeader = false)]
  obtain ⟨g, hg, hgok⟩ := hsome
  have hgok := hgok newToken htoken
  rw [hfollowers] at hg
  rw [hds, hfollowers]
  -- the daemons the second run meets: the leader as before, the followers as the requests left them
  have hpeer : ∀ p ∈ j.followersOf sorted,
      (j.fanOut newToken ds rpc (j.followersOf sorted)).peer p = (j.remote newToken ds rpc p).1 :=
    fun p hp => if_pos hp
  have hsecond := @rotate_reachable j newToken
    (j.fanOut newToken ds rpc (j.followersOf sorted)) sorted
  rw [show presented (j.fanOut newToken ds rpc (j.followersOf sorted)) = presented ds from rfl]
    at hsecond
  constructor
  · rintro ⟨hok, -⟩
    rw [hrerun] at hok
    have haccept := hsecond.mp hok
    have hgnew : presented ds = newToken := by
      have h := (haccept g hg).1
      rwa [hpeer g hg, remote_daemon hgok] at h
    refine ⟨by rw [htoken, hgnew], fun p hp => ?_⟩
    have h := (haccept p hp).1
    rw [hpeer p hp] at h
    rcases @remote_running j newToken ds rpc p with
      hkept | ⟨-, hsame⟩
    · exact hkept.symm.trans h.symm
    · exact hsame.symm
  · rintro ⟨hnew, hsame⟩
    have hnew : newToken = presented ds := Option.some.inj (htoken.symm.trans hnew)
    have hascii : isAscii (presented ds) = true := by
      have h := (remote_ok.mp hgok).2
      rw [← h.1] at h
      exact h.2
    have hrunning : ∀ p ∈ j.followersOf sorted,
        ((j.fanOut newToken ds rpc (j.followersOf sorted)).peer p).running = presented ds := by
      intro p hp
      rw [hpeer p hp]
      rcases @remote_running j newToken ds rpc p with
        hkept | ⟨hset, -⟩
      · exact hkept.trans (hsame p hp)
      · exact hset.trans hnew
    have hok := hsecond.mpr fun p hp => ⟨(hrunning p hp).symm, (hrunning p hp) ▸ hascii⟩
    refine ⟨by rw [hrerun, hok], ?_⟩
    intro token htoken'
    cases htoken.symm.trans htoken'
    rw [hrerun, hfollowers]
    exact rotate_files hok

/-! ## Runs in a cluster of three -/

def oldToken : String := "0123456789abcdef0123456789abcdef"

def otherToken : String := "fedcba9876543210fedcba9876543210"

/-- A rotation from `node-1` with two followers in its mirror. -/
def threePeers (newToken : String) : Rotation where
  nodeName := "node-1"
  listenPort := 19500
  isLeader := true
  mirror := OrderedMap.empty.putAll [("node-1", .obj [("ip", .str "10.0.0.1")]),
    ("node-2", .obj [("ip", .str "10.0.0.2")]), ("node-3", .obj [("ip", .str "10.0.0.3")])]
  newToken := some newToken

/-- Every daemon runs with the token of its file. -/
def settled : Daemons :=
  ⟨⟨["CLUSTER_TOKEN=" ++ oldToken], oldToken⟩,
    fun _ => ⟨["CLUSTER_TOKEN=" ++ oldToken], oldToken⟩⟩

/-- The daemon of `node-3` is down. -/
def thirdDown (p : String × String) : Rpc :=
  if p.1 = "node-3" then .dropped "All connection attempts failed" else .answered .works

theorem retry_recovers_same :
    (threePeers oldToken).Recovers ((threePeers oldToken).run settled thirdDown .works).1 := by
  refine (retry_recovers_iff (n := 1) (by decide +kernel) ⟨("node-2", "10.0.0.2"), ?_, ?_⟩).mpr ?_
  · decide +kernel
  · intro newToken h
    cases h
    decide +kernel
  · decide +kernel

/-- One follower has the new token and the other is down: the run that the error
message asks for fails on the follower that succeeded. -/
theorem retry_refused : ((threePeers otherToken).run settled thirdDown .works).2 =
      .error (.raised (halfRotated 1)) ∧
    ((threePeers otherToken).remote otherToken settled thirdDown ("node-2", "10.0.0.2")).2 = .ok () ∧
    ¬(threePeers otherToken).Recovers ((threePeers otherToken).run settled thirdDown .works).1 := by
  refine ⟨by decide +kernel, by decide +kernel, fun h => ?_⟩
  have hfails : ((threePeers otherToken).run
      ((threePeers otherToken).run settled thirdDown .works).1 reachable .works).2 ≠ .ok () := by
    decide +kernel
  exact hfails h.1

end Rotation

end MilvusOnprem.TokenRotation
