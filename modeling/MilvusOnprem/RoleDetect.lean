import MilvusOnprem.PulsarDeploys
import MilvusOnprem.MinioRender

/-!
# The role of a host

`role_detect` of the shell, from the variables that sourcing `cluster.env` gives: the
arrays of the peers, which of them this host is, and the ip of the host of Pulsar.
-/
namespace MilvusOnprem.RoleDetect

open PythonText
open PulsarDeploys (Vars value)
open MinioRender (readArray)

/-- What is not in the variables: the text of `hostname -I`, whether `grep` finds an ip in
it, and what `$((NODE_INDEX-1))` is for a text. -/
structure Host where
  myIps : String
  finds : String → Bool
  minusOne : String → Option ℤ

structure Place where
  NODE_INDEX : String
  NODE_NAME : String
  LOCAL_IP : String
deriving DecidableEq

structure Role extends Place where
  PEERS_ARR : List String
  PEER_NAMES : List String
  PULSAR_HOST_IP : String
deriving DecidableEq

def Role.CLUSTER_SIZE (r : Role) : ℕ := r.PEERS_ARR.length

/-- `${ARR[i]}`, where a negative index counts from the end. -/
def element (arr : List String) (i : ℤ) : Option String :=
  if 0 ≤ i then arr[i.toNat]?
  else if 0 ≤ i + arr.length then arr[(i + arr.length).toNat]?
  else none

/-- The array `PEER_NAMES` from its comma-separated text. -/
def peerNames (size : ℕ) (csv : String) : Except String (List String) :=
  if csv ≠ "" then
    let names := readArray csv
    if names.length ≠ size then
      .error ("PEER_NAMES (" ++ toString names.length ++ " entries) and PEER_IPS (" ++ toString size ++
        " entries) length mismatch in cluster.env. Re-render after fixing — re-init if cluster.env is " ++
        "unrecoverable.")
    else .ok names
  else .ok ((List.range size).map fun i => "node-" ++ toString (i + 1))

/-- `"${PULSAR_HOST:-node-1}"` -/
def pulsarHost (vars : Vars) : String :=
  if value vars "PULSAR_HOST" = "" then "node-1" else value vars "PULSAR_HOST"

/-- `_role_resolve_pulsar_host_ip` -/
def pulsarHostIp (ips names : List String) (host : String) : Except String String :=
  let found := (((names.zip ips).find? fun p => p.1 = host).map Prod.snd).getD ""
  if found ≠ "" then .ok found
  else
    match ips with
    | ip :: _ => .ok ip
    | [] => .error "PEERS_ARR[0]: unbound variable"

/-- The peer that `FORCE_NODE_INDEX` says. -/
def forced (host : Host) (ips names : List String) (index : String) : Except String Place :=
  match host.minusOne index with
  | some i =>
      match element ips i, element names i with
      | some ip, some name => .ok ⟨index, name, ip⟩
      | _, _ => .error "NODE_INDEX-1: unbound variable"
  | none => .error (index ++ "-1: syntax error in expression")

/-- The rest of `role_detect`: the place of this host among the peers. -/
def located (host : Host) (vars : Vars) (ips names : List String) : Except String Place :=
  let index := value vars "FORCE_NODE_INDEX"
  let name := value vars "NODE_NAME"
  let localIp := value vars "LOCAL_IP"
  if index ≠ "" then forced host ips names index
  else if name ≠ "" then
    match names.findIdx? fun other => other = name with
    | some i => .ok ⟨toString (i + 1), name, if localIp = "" then ips.getD i "" else localIp⟩
    | none => .error ("NODE_NAME=" ++ name ++ " not found in PEER_NAMES (" ++ join " " names ++
        "). cluster.env is out of sync with topology — re-render after fixing.")
  else
    match ips.findIdx? host.finds with
    | some i => .ok ⟨toString (i + 1), names.getD i "", ips.getD i ""⟩
    | none => .error ("could not match any of \x60hostname -I\x60 (" ++ host.myIps ++
        ") against PEER_IPS (" ++ value vars "PEER_IPS" ++
        "). Is this VM in the cluster? If you really need to override, set FORCE_NODE_INDEX=N.")

/-- `role_detect`, after the check of `env_require`. -/
def roleDetect (host : Host) (vars : Vars) : Except String Role :=
  if value vars "PEER_IPS" = "" then .error "PEER_IPS not set in cluster.env"
  else do
    let ips := readArray (value vars "PEER_IPS")
    let names ← peerNames ips.length (value vars "PEER_NAMES")
    let pulsar ← pulsarHostIp ips names (pulsarHost vars)
    let place ← located host vars ips names
    .ok ⟨place, ips, names, pulsar⟩

/-! ## The arrays -/

/-- Fields that are joined are read back, unless the last one is empty. -/
theorem readArray_join_iff {fields : List String} (hne : fields ≠ [])
    (hfields : ∀ s ∈ fields, ',' ∉ s.toList ∧ '\n' ∉ s.toList) :
    readArray (join "," fields) = fields ↔ fields.getLast? ≠ some "" := by
  have hline : ∀ c ∈ (join "," fields).toList, decide (c ≠ '\n') = true := by
    intro c hc
    rw [decide_eq_true_eq]
    rintro rfl
    rcases mem_toList_join hc with hc | ⟨s, hs, hc⟩
    · exact absurd hc (by decide)
    · exact (hfields s hs).2 hc
  have hsplit : split ',' (join "," fields) = fields := split_join ',' hne fun s hs => (hfields s hs).1
  unfold readArray
  rw [List.takeWhile_eq_self_iff.mpr hline, String.ofList_toList]
  simp only [hsplit]
  split_ifs with hlast
  · refine iff_of_false (fun h => ?_) (not_not.mpr hlast)
    have hlength := congrArg List.length h
    rw [List.length_dropLast] at hlength
    exact absurd hlength (Nat.ne_of_lt (Nat.sub_lt (List.length_pos_iff.mpr hne) Nat.one_pos))
  · exact iff_of_true rfl hlast

theorem length_join_dropLast (fields : List String) :
    (join "," fields.dropLast).toList.length ≤ (join "," fields).toList.length := by
  induction fields with
  | nil => exact le_rfl
  | cons field fields ih =>
      match fields, ih with
      | [], _ => simp [join]
      | [next], _ =>
          rw [List.dropLast_cons_cons, List.dropLast_singleton, join_cons_cons, String.append_assoc,
            String.toList_append, List.length_append]
          exact Nat.le_add_right _ _
      | next :: last :: fields, ih =>
          rw [List.dropLast_cons_cons] at ih
          have happend : ∀ a b : String, (a ++ b).toList.length = a.toList.length + b.toList.length := by
            intro a b
            rw [String.toList_append, List.length_append]
          rw [List.dropLast_cons_cons, List.dropLast_cons_cons, join_cons_cons, join_cons_cons, happend,
            happend (field ++ ",")]
          exact Nat.add_le_add_left ih _

/-- A text that is read as an array is at least as long as its fields. -/
theorem join_readArray_length (s : String) :
    (join "," (readArray s)).toList.length ≤ s.toList.length := by
  have hjoin : ∀ t : String, (join "," (split ',' t)).toList = t.toList := by
    intro t
    have hparts : (split ',' t).map String.toList = t.toList.splitOn ',' := by
      rw [split, List.map_map, show String.toList ∘ String.ofList = id from funext fun _ =>
        String.toList_ofList, List.map_id]
    rw [show (join "," (split ',' t)).toList = _ from EnvText.toList_join ',' _, hparts,
      List.intercalate_splitOn]
  have hfields : (join "," (split ',' (String.ofList (s.toList.takeWhile fun c => c ≠ '\n')))).toList.length ≤
      s.toList.length := by
    rw [hjoin, String.toList_ofList]
    exact (List.takeWhile_prefix _).length_le
  unfold readArray
  dsimp only
  split_ifs
  · exact (length_join_dropLast _).trans hfields
  · exact hfields

end MilvusOnprem.RoleDetect
