import MilvusOnprem.PythonText
import Mathlib.Data.List.TakeWhile
import Mathlib.Algebra.Group.Nat.Defs

/-!
# The MinIO pools of the rendered command line

What `env.sh`, `role.sh` and `render.sh` make of `cluster.env` in distributed
mode. The shell treats an empty value as an unset one. Finding out which of the
peers this host is changes nothing in the pools and is left out.
-/
namespace MilvusOnprem.MinioRender

open PythonText

/-- The settings the pools depend on; nothing when the line is missing. -/
structure Env where
  PEER_IPS : String
  PEER_NAMES : Option String
  MINIO_API_PORT : Option String
  MINIO_DRIVES_PER_NODE : Option String
  MINIO_HA_POOL_SIZE : Option String
deriving DecidableEq, Repr

/-- `${VAR:-dflt}` -/
def orDefault (dflt : String) : Option String → String
  | some "" | none => dflt
  | some v => v

def Env.apiPort (e : Env) : String := orDefault "9000" e.MINIO_API_PORT

def Env.drivesPerNode (e : Env) : String := orDefault "4" e.MINIO_DRIVES_PER_NODE

/-! ## The arrays of `role_detect` -/

/-- `IFS=',' read -ra` on a here-string: the first line, cut at its commas, where
nothing after the last comma is no element. -/
def readArray (s : String) : List String :=
  let fields := split ',' (String.ofList (s.toList.takeWhile fun c => c ≠ '\n'))
  if fields.getLast? = some "" then fields.dropLast else fields

/-- The parallel arrays; their number of elements is `CLUSTER_SIZE`. -/
structure Peers where
  PEERS_ARR : List String
  PEER_NAMES : List String
  paired : PEER_NAMES.length = PEERS_ARR.length
deriving DecidableEq

/-- The arrays of `role_detect`, after the check of `env_require`; nothing when
the script dies. -/
def roleDetect (e : Env) : Option Peers :=
  if e.PEER_IPS = "" then none
  else
    let ips := readArray e.PEER_IPS
    let csv := orDefault "" e.PEER_NAMES
    if csv = "" then
      some ⟨ips, (List.range ips.length).map fun i => "node-" ++ toString (i + 1), by simp⟩
    else if h : (readArray csv).length = ips.length then some ⟨ips, readArray csv, h⟩
    else none

/-! ## The pools -/

/-- One pool of the command line. -/
def poolArg (port drives host : String) : String :=
  "http://" ++ host ++ ":" ++ port ++ "/drive\x7b1..." ++ drives ++ "\x7d"

/-- `${MINIO_VOLUMES% }` -/
def trimBlank (s : String) : String :=
  if s.toList.getLast? = some ' ' then String.ofList s.toList.dropLast else s

/-- `_render_minio_legacy_pools` -/
def renderMinioLegacyPools (port drives : String) (ips : List String) : String :=
  trimBlank (ips.foldl (fun volumes ip => volumes ++ (poolArg port drives ip ++ " ")) "")

/-- `=~ ^[0-9]+$` -/
def isNumber (s : String) : Bool := s ≠ "" && s.toList.all Char.isDigit

/-- A text of digits in an arithmetic expression: octal after a leading zero, and
a number of 64 bits. An octal number with another digit is an error. -/
def shellNumber (s : String) : Option ℤ :=
  let value := fun base ds => (ds.foldl (fun n (c : Char) => base * n + (c.toNat - 48)) 0 : ℕ)
  match s.toList with
  | '0' :: ds =>
      if ds.all fun c => c ≤ '7' then some (Int.bmod (value 8 ds) (2 ^ 64)) else none
  | ds => some (Int.bmod (value 10 ds) (2 ^ 64))

/-- The alias index of a peer that is in no wide pool of this size. -/
def extraIndex (haSize name : String) : Option String :=
  let idx := removePrefix "node-" name
  match isNumber idx, shellNumber idx, shellNumber haSize with
  | true, some n, some m => if m < n then some idx else none
  | _, _, _ => none

/-- `_render_minio_ha_pool` -/
def renderMinioHaPool (haSize port drives : String) (names : List String) : String :=
  names.foldl
    (fun volumes name => volumes ++ match extraIndex haSize name with
      | some idx => " " ++ poolArg port drives ("mio-" ++ idx)
      | none => "")
    (poolArg port drives ("mio-\x7b1..." ++ haSize ++ "\x7d"))

/-- The size of the wide pool as a text of digits, when there is a wide pool. -/
def Env.haSize (e : Env) : Option String :=
  let size := orDefault "0" e.MINIO_HA_POOL_SIZE
  if isNumber size && (shellNumber size).any (fun n => 2 ≤ n) then some size else none

/-- `MINIO_VOLUMES` as `_render_compute_derived` leaves it. -/
def minioVolumes (e : Env) (peers : Peers) : String :=
  match e.haSize with
  | some size => renderMinioHaPool size e.apiPort e.drivesPerNode peers.PEER_NAMES
  | none => renderMinioLegacyPools e.apiPort e.drivesPerNode peers.PEERS_ARR

/-- The arguments of the server command that are pools. -/
def poolArguments (volumes : String) : List String := split ' ' volumes

/-! ## What is rendered -/

theorem toList_poolArg (port drives host : String) :
    (poolArg port drives host).toList = "http://".toList ++ host.toList ++
      ':' :: (port.toList ++ "/drive\x7b1...".toList ++ drives.toList ++ ['\x7d']) := by
  simp [poolArg]

/-- A text that is one element of an array. -/
def IsField (s : String) : Prop := s ≠ "" ∧ ',' ∉ s.toList ∧ '\n' ∉ s.toList

theorem readArray_join {fields : List String} (hne : fields ≠ [])
    (hfields : ∀ s ∈ fields, IsField s) :
    readArray (join "," fields) = fields := by
  have hline : ∀ c ∈ (join "," fields).toList, decide (c ≠ '\n') = true := by
    intro c hc
    rw [decide_eq_true_eq]
    rintro rfl
    rcases mem_toList_join hc with hc | ⟨s, hs, hc⟩
    · exact absurd hc (by decide)
    · exact (hfields s hs).2.2 hc
  have hsplit : split ',' (join "," fields) = fields :=
    split_join ',' hne fun s hs => (hfields s hs).2.1
  have hlast : fields.getLast? ≠ some "" := fun h =>
    (hfields "" (List.mem_of_getLast? h)).1 rfl
  unfold readArray
  rw [List.takeWhile_eq_self_iff.mpr hline, String.ofList_toList]
  simp only [hsplit, if_neg hlast]

theorem mem_readArray {c : Char} {s field : String} (hfield : field ∈ readArray s)
    (hc : c ∈ field.toList) : c ∈ s.toList ∧ c ≠ ',' := by
  have hsplit : field ∈ split ',' (String.ofList (s.toList.takeWhile fun c => c ≠ '\n')) := by
    unfold readArray at hfield
    dsimp only at hfield
    split_ifs at hfield
    · exact List.mem_of_mem_dropLast hfield
    · exact hfield
  obtain ⟨hmem, hne⟩ := mem_split hsplit hc
  rw [String.toList_ofList] at hmem
  exact ⟨(List.takeWhile_prefix _).subset hmem, hne⟩

theorem foldl_blank (parts : List String) (pre : String) :
    parts.foldl (fun acc s => acc ++ (s ++ " ")) pre =
      if parts = [] then pre else pre ++ (join " " parts ++ " ") := by
  induction parts generalizing pre with
  | nil => rfl
  | cons p rest ih =>
      rw [List.foldl_cons, ih]
      cases rest with
      | nil => simp [join]
      | cons q rest => simp [join_cons_cons, String.append_assoc]

theorem renderMinioLegacyPools_eq (port drives : String) (ips : List String) :
    renderMinioLegacyPools port drives ips = join " " (ips.map (poolArg port drives)) := by
  have hfold := foldl_blank (ips.map (poolArg port drives)) ""
  rw [List.foldl_map] at hfold
  rw [renderMinioLegacyPools, hfold]
  split_ifs with hnil
  · rw [hnil]
    rfl
  · rw [String.empty_append, trimBlank]
    simp

theorem foldl_option (f : String → Option String) (names : List String) (first : String) :
    names.foldl (fun acc name => acc ++ match f name with
      | some s => " " ++ s
      | none => "") first = join " " (first :: names.filterMap f) := by
  induction names generalizing first with
  | nil => rfl
  | cons name names ih =>
      rw [List.foldl_cons, ih]
      cases hf : f name with
      | none => simp [hf]
      | some s =>
        rw [List.filterMap_cons_some hf]
        cases hr : names.filterMap f with
        | nil => simp [join, String.append_assoc]
        | cons q rest => simp [join_cons_cons, String.append_assoc]

theorem renderMinioHaPool_eq (haSize port drives : String) (names : List String) :
    renderMinioHaPool haSize port drives names =
      join " " (poolArg port drives ("mio-\x7b1..." ++ haSize ++ "\x7d") ::
        (names.filterMap (extraIndex haSize)).map fun idx => poolArg port drives ("mio-" ++ idx)) := by
  have h := foldl_option
    (fun name => (extraIndex haSize name).map fun idx => poolArg port drives ("mio-" ++ idx)) names
    (poolArg port drives ("mio-\x7b1..." ++ haSize ++ "\x7d"))
  rw [List.map_filterMap, ← h, renderMinioHaPool]
  congr 1
  funext volumes name
  cases extraIndex haSize name <;> rfl

/-- Without a wide pool every peer is an argument, in the order of the list. -/
theorem poolArguments_legacy {e : Env} {peers : Peers} (hne : peers.PEERS_ARR ≠ [])
    (hsize : e.haSize = none)
    (hblank : ∀ ip ∈ peers.PEERS_ARR, ' ' ∉ (poolArg e.apiPort e.drivesPerNode ip).toList) :
    poolArguments (minioVolumes e peers) =
      peers.PEERS_ARR.map (poolArg e.apiPort e.drivesPerNode) := by
  rw [minioVolumes, hsize]
  dsimp only
  rw [renderMinioLegacyPools_eq, poolArguments]
  refine split_join ' ' (by simpa using hne) ?_
  intro arg harg
  obtain ⟨ip, hip, rfl⟩ := List.mem_map.mp harg
  exact hblank ip hip

theorem join_ne_empty {fields : List String} (hne : fields ≠ []) (hfields : ∀ s ∈ fields, s ≠ "") :
    join "," fields ≠ "" := by
  cases fields with
  | nil => exact absurd rfl hne
  | cons s rest =>
      have hs := hfields s List.mem_cons_self
      cases rest with
      | nil => exact hs
      | cons t rest => simp [join_cons_cons]

/-- The settings with the lists of these peers. -/
def Env.withPeers (e : Env) (peers : List (String × String)) : Env :=
  { e with
    PEER_IPS := join "," (peers.map Prod.snd)
    PEER_NAMES := some (join "," (peers.map Prod.fst)) }

/-- Lists of names and ips that were written are read back. -/
theorem roleDetect_withPeers (e : Env) {peers : List (String × String)} (hne : peers ≠ [])
    (hfields : ∀ p ∈ peers, IsField p.1 ∧ IsField p.2) :
    roleDetect (e.withPeers peers) =
      some ⟨peers.map Prod.snd, peers.map Prod.fst, by simp⟩ := by
  have hips : ∀ s ∈ peers.map Prod.snd, IsField s := by
    intro s hs
    obtain ⟨p, hp, rfl⟩ := List.mem_map.mp hs
    exact (hfields p hp).2
  have hnames : ∀ s ∈ peers.map Prod.fst, IsField s := by
    intro s hs
    obtain ⟨p, hp, rfl⟩ := List.mem_map.mp hs
    exact (hfields p hp).1
  have hipsText := join_ne_empty (by simpa using hne) fun s hs => (hips s hs).1
  have hnamesText := join_ne_empty (by simpa using hne) fun s hs => (hnames s hs).1
  have hcsv : orDefault "" (some (join "," (peers.map Prod.fst))) =
      join "," (peers.map Prod.fst) := by
    unfold orDefault
    split <;> simp_all
  have hread := readArray_join (by simpa using hne) hips
  have hread' := readArray_join (by simpa using hne) hnames
  simp only [roleDetect, Env.withPeers, if_neg hipsText, hcsv, if_neg hnamesText, hread, hread',
    List.length_map, dif_pos]

example : (roleDetect ⟨"10.0.0.1,10.0.0.2", none, none, none, none⟩).map
    (minioVolumes ⟨"10.0.0.1,10.0.0.2", none, none, none, none⟩) =
    some ("http://10.0.0.1:9000/drive\x7b1...4\x7d http://10.0.0.2:9000/drive\x7b1...4\x7d") := by
  decide +kernel

end MilvusOnprem.MinioRender
