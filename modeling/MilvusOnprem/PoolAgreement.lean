import MilvusOnprem.MinioRender
import MilvusOnprem.RemoveNode

/-!
# The pool a remove-node job decommissions

The worker writes the URL of the target's pool by hand and looks for the pool
with a fragment of it. Both are compared with the arguments that are rendered
from the same settings, in every layout.
-/
namespace MilvusOnprem.PoolAgreement

open PythonText MinioRender RemoveNode ClusterEnv

/-- `pool_url_pattern` of `run_remove_node` -/
def poolUrlPattern (targetIp port : String) : String :=
  "http://" ++ targetIp ++ ":" ++ port ++ "/drive\x7b1...4\x7d"

/-- `target_pool_url_fragment` of `run_remove_node` -/
def targetPoolUrlFragment (targetIp port : String) : String := targetIp ++ ":" ++ port ++ "/drive"

/-- Settings whose values mean the same to the shell and to the worker: the peer
list holds digits, dots and commas, the port and the drive count are plain words. -/
structure Settings extends Env where
  dotted : ∀ c ∈ PEER_IPS.toList, c = ',' ∨ c = '.' ∨ (decimalDigit c).isSome = true
  plainPort : ∀ v, MINIO_API_PORT = some v → ∀ c ∈ v.toList, c.isAlphanum = true
  plainDrives : ∀ v, MINIO_DRIVES_PER_NODE = some v → ∀ c ∈ v.toList, c.isAlphanum = true

namespace Settings

/-- `_minio_api_port` on these settings: an empty value is a value. -/
def workerPort (s : Settings) : String := s.MINIO_API_PORT.getD "9000"

/-- The place on the command line of the pool with the drives of the `i`-th peer. -/
def poolPlace (s : Settings) (peers : Peers) (i : ℕ) : Option ℕ :=
  match s.haSize with
  | none => some i
  | some size =>
      (peers.PEER_NAMES[i]?).bind fun name =>
        match extraIndex size name with
        | some _ => some (1 + ((peers.PEER_NAMES.take i).filterMap (extraIndex size)).length)
        | none => if isNumber (removePrefix "node-" name) then some 0 else none

/-- The worker's URL is the argument that holds the peer's drives, and its
fragment occurs in that argument and in no other. -/
def Decommissions (s : Settings) (peers : Peers) (i : ℕ) (ip : String) : Prop :=
  let args := poolArguments (minioVolumes s.toEnv peers)
  ∃ k, s.poolPlace peers i = some k ∧ args[k]? = some (poolUrlPattern ip s.workerPort) ∧
    ∀ j arg, args[j]? = some arg →
      (contains arg (targetPoolUrlFragment ip s.workerPort) = true ↔ j = k)

end Settings

/-! ## Hosts inside arguments -/

/-- Two ways to cut a list at an element that the first part does not hold. -/
theorem append_cons_eq {α : Type*} {a : α} {x y u v : List α} (hu : a ∉ u)
    (h : x ++ a :: y = u ++ a :: v) :
    (x = u ∧ y = v) ∨ ∃ w, x = u ++ a :: w ∧ v = w ++ a :: y := by
  rcases List.append_eq_append_iff.mp h with ⟨w, hw, hv⟩ | ⟨w, hw, hv⟩
  · cases w with
    | nil =>
        rw [List.append_nil] at hw
        exact .inl ⟨hw.symm, (List.cons.inj hv).2⟩
    | cons b w =>
        obtain ⟨rfl, -⟩ := List.cons.inj hv
        exact absurd (hw ▸ List.mem_append_right x List.mem_cons_self) hu
  · cases w with
    | nil =>
        rw [List.append_nil] at hw
        exact .inl ⟨hw, (List.cons.inj hv).2.symm⟩
    | cons b w =>
        obtain ⟨rfl, hrest⟩ := List.cons.inj hv
        exact .inr ⟨w, hw, hrest⟩

/-- A host and its port stand in the argument of another host only as the end of
that host. -/
theorem fragment_infix {ip ip' port drives : List Char} (hne : ip ≠ [])
    (hip : ':' ∉ ip ∧ '/' ∉ ip) (hip' : ':' ∉ ip') (hport : ':' ∉ port ∧ '/' ∉ port)
    (hdrives : ':' ∉ drives) :
    ip ++ ':' :: (port ++ "/drive".toList) <:+:
        "http://".toList ++ ip' ++ ':' :: (port ++ "/drive\x7b1...".toList ++ drives ++ ['\x7d']) ↔
      ip <:+ ip' := by
  constructor
  · rintro ⟨a, b, h⟩
    have hcut : (a ++ ip) ++ ':' :: (port ++ "/drive".toList ++ b) =
        "http".toList ++ ':' :: ("//".toList ++ ip' ++
          ':' :: (port ++ "/drive\x7b1...".toList ++ drives ++ ['\x7d'])) := by
      simpa using h
    rcases append_cons_eq (by decide) hcut with ⟨-, hrest⟩ | ⟨w, hw, hrest⟩
    · -- the colon of the fragment would be the one of the scheme
      cases port with
      | nil => simp at hrest
      | cons c port =>
          have hc : c = '/' := by
            simp only [List.cons_append] at hrest
            exact (List.cons.inj hrest).1
          exact absurd (hc ▸ List.mem_cons_self) hport.2
    · have hleft : ':' ∉ "//".toList ++ ip' := by simpa using hip'
      rcases append_cons_eq hleft hrest.symm with ⟨rfl, -⟩ | ⟨w', -, hrest'⟩
      · have hsuffix : ip <:+ "http://".toList ++ ip' := ⟨a, by simpa using hw⟩
        rcases List.suffix_or_suffix_of_suffix hsuffix (List.suffix_append _ _) with h | ⟨t, rfl⟩
        · exact h
        · obtain ⟨s, hs⟩ := hsuffix
          rw [← List.append_assoc, List.append_left_inj] at hs
          have ht : t <:+ "http:/".toList ++ ['/'] := ⟨s, hs⟩
          rcases List.suffix_concat_iff.mp ht with rfl | ⟨r, rfl, -⟩
          · exact List.suffix_refl _
          · exact absurd (by simp) hip.2
      · have hmem : ':' ∈ port ++ "/drive\x7b1...".toList ++ drives ++ ['\x7d'] := by
          rw [hrest']
          simp
        simp [hport.1, hdrives] at hmem
  · rintro ⟨s, hs⟩
    refine ⟨"http://".toList ++ s, "\x7b1...".toList ++ drives ++ ['\x7d'], ?_⟩
    rw [← hs]
    simp

/-! ## The characters of the settings -/

theorem orDefault_cases (dflt : String) (v : Option String) :
    orDefault dflt v = dflt ∧ v.getD "" = "" ∨ v = some (orDefault dflt v) ∧ orDefault dflt v ≠ "" := by
  unfold orDefault
  split
  · exact .inl ⟨rfl, rfl⟩
  · exact .inl ⟨rfl, rfl⟩
  · next w hw => exact .inr ⟨rfl, hw⟩

theorem plain_orDefault {dflt : String} {v : Option String}
    (hd : ∀ c ∈ dflt.toList, c.isAlphanum = true)
    (hv : ∀ w, v = some w → ∀ c ∈ w.toList, c.isAlphanum = true) :
    ∀ c ∈ (orDefault dflt v).toList, c.isAlphanum = true := by
  rcases orDefault_cases dflt v with ⟨h, -⟩ | ⟨h, -⟩
  · rw [h]
    exact hd
  · exact hv _ h

/-- A plain word holds no separator. -/
theorem notMem_of_plain {cs : List Char} (h : ∀ c ∈ cs, c.isAlphanum = true) {x : Char}
    (hx : x.isAlphanum = false) : x ∉ cs := by
  intro hm
  rw [h x hm] at hx
  cases hx

namespace Settings

theorem plain_apiPort (s : Settings) : ∀ c ∈ s.apiPort.toList, c.isAlphanum = true :=
  plain_orDefault (by decide) s.plainPort

theorem plain_drivesPerNode (s : Settings) : ∀ c ∈ s.drivesPerNode.toList, c.isAlphanum = true :=
  plain_orDefault (by decide) s.plainDrives

theorem plain_workerPort (s : Settings) : ∀ c ∈ s.workerPort.toList, c.isAlphanum = true := by
  unfold workerPort
  cases h : s.MINIO_API_PORT with
  | none => decide
  | some v => exact s.plainPort v h

/-- The ports agree unless the line is there without a value. -/
theorem workerPort_eq_iff (s : Settings) : s.workerPort = s.apiPort ↔ s.MINIO_API_PORT ≠ some "" := by
  unfold workerPort Env.apiPort
  cases s.MINIO_API_PORT with
  | none => simp [orDefault]
  | some v =>
      by_cases hv : v = ""
      · subst hv
        decide
      · rcases orDefault_cases "9000" (some v) with ⟨-, h⟩ | ⟨h, -⟩
        · exact absurd h hv
        · simp [← Option.some.inj h, hv]

theorem peers_of_roleDetect {e : Env} {peers : Peers} (h : roleDetect e = some peers) :
    peers.PEERS_ARR = readArray e.PEER_IPS := by
  rw [roleDetect] at h
  split_ifs at h with hips
  dsimp only at h
  split_ifs at h with hcsv hlength
  · rw [← Option.some.inj h]
  · rw [← Option.some.inj h]

/-- A peer's address holds digits and dots. -/
theorem dotted_peer (s : Settings) {peers : Peers} (hp : roleDetect s.toEnv = some peers)
    {ip : String} (hip : ip ∈ peers.PEERS_ARR) :
    ∀ c ∈ ip.toList, c = '.' ∨ (decimalDigit c).isSome = true := by
  intro c hc
  rw [peers_of_roleDetect hp] at hip
  obtain ⟨hmem, hne⟩ := mem_readArray hip hc
  exact (s.dotted c hmem).resolve_left hne

end Settings

/-- Such an address holds no separator. -/
theorem notMem_of_dotted {cs : List Char}
    (h : ∀ c ∈ cs, c = '.' ∨ (decimalDigit c).isSome = true) {x : Char} (hdot : x ≠ '.')
    (hdigit : decimalDigit x = none) : x ∉ cs := by
  intro hm
  rcases h x hm with he | hd
  · exact hdot he
  · rw [hdigit] at hd
    cases hd

/-! ## The arguments -/

theorem poolUrlPattern_eq (ip port : String) : poolUrlPattern ip port = poolArg port "4" ip := by
  apply String.toList_injective
  rw [toList_poolArg]
  simp [poolUrlPattern]

theorem toList_fragment (ip port : String) :
    (targetPoolUrlFragment ip port).toList = ip.toList ++ ':' :: (port.toList ++ "/drive".toList) := by
  simp [targetPoolUrlFragment]

/-- Two arguments of one host are equal when the ports and the drive counts are. -/
theorem poolArg_inj {port port' drives drives' : String} (ip : String)
    (hport : '/' ∉ port.toList) (hport' : '/' ∉ port'.toList) :
    poolArg port drives ip = poolArg port' drives' ip ↔ port = port' ∧ drives = drives' := by
  constructor
  · intro h
    have hl := congrArg String.toList h
    rw [toList_poolArg, toList_poolArg, List.append_cancel_left_eq] at hl
    have hrest : port.toList ++ '/' :: ("drive\x7b1...".toList ++ drives.toList ++ ['\x7d']) =
        port'.toList ++ '/' :: ("drive\x7b1...".toList ++ drives'.toList ++ ['\x7d']) := by
      simpa using hl
    rcases append_cons_eq hport' hrest with ⟨hp, hd⟩ | ⟨w, hw, -⟩
    · constructor
      · exact String.toList_injective hp
      · exact String.toList_injective (by simpa using hd)
    · exact absurd (hw ▸ List.mem_append_right _ List.mem_cons_self) hport
  · rintro ⟨rfl, rfl⟩
    rfl

namespace Settings

theorem poolArg_noBlank (s : Settings) {host : String} (hhost : ' ' ∉ host.toList) :
    ' ' ∉ (poolArg s.apiPort s.drivesPerNode host).toList := by
  have hport := notMem_of_plain s.plain_apiPort (x := ' ') (by decide)
  have hdrives := notMem_of_plain s.plain_drivesPerNode (x := ' ') (by decide)
  rw [toList_poolArg]
  simp [hhost, hport, hdrives]

theorem noBlank_peer (s : Settings) {peers : Peers} (hp : roleDetect s.toEnv = some peers)
    {ip : String} (hip : ip ∈ peers.PEERS_ARR) : ' ' ∉ ip.toList :=
  notMem_of_dotted (s.dotted_peer hp hip) (by decide) (by decide)

/-- Without a wide pool every peer is an argument, in the order of the list. -/
theorem args_legacy (s : Settings) {peers : Peers} (hp : roleDetect s.toEnv = some peers)
    (hne : peers.PEERS_ARR ≠ []) (hsize : s.haSize = none) :
    poolArguments (minioVolumes s.toEnv peers) =
      peers.PEERS_ARR.map (poolArg s.apiPort s.drivesPerNode) :=
  poolArguments_legacy hne hsize fun _ hip => s.poolArg_noBlank (s.noBlank_peer hp hip)

/-- With a wide pool every argument names aliases. -/
theorem args_wide (s : Settings) (peers : Peers) {size : String} (hsize : s.haSize = some size) :
    ∀ arg ∈ poolArguments (minioVolumes s.toEnv peers),
      ∃ rest, arg = poolArg s.apiPort s.drivesPerNode ("mio-" ++ rest) := by
  have hdigits : ∀ t, isNumber t = true → ' ' ∉ t.toList := by
    intro t ht hm
    simp only [isNumber, Bool.and_eq_true, List.all_eq_true] at ht
    exact absurd (ht.2 _ hm) (by decide)
  have hnumber : isNumber size = true := by
    unfold Env.haSize at hsize
    dsimp only at hsize
    split_ifs at hsize with h
    rw [← Option.some.inj hsize]
    exact (Bool.and_eq_true_iff.mp h).1
  have hextra : ∀ name idx, extraIndex size name = some idx → isNumber idx = true := by
    intro name idx h
    unfold extraIndex at h
    dsimp only at h
    split at h
    · next hnum _ _ =>
        split_ifs at h
        rw [← Option.some.inj h]
        exact hnum
    · cases h
  rw [minioVolumes, hsize]
  dsimp only
  have hargs : ∀ arg ∈ poolArg s.apiPort s.drivesPerNode ("mio-\x7b1..." ++ size ++ "\x7d") ::
      (peers.PEER_NAMES.filterMap (extraIndex size)).map fun idx =>
        poolArg s.apiPort s.drivesPerNode ("mio-" ++ idx),
      ∃ rest, arg = poolArg s.apiPort s.drivesPerNode ("mio-" ++ rest) ∧ ' ' ∉ rest.toList := by
    intro arg harg
    rcases List.mem_cons.mp harg with harg | harg
    · refine ⟨"\x7b1..." ++ size ++ "\x7d", ?_, ?_⟩
      · rw [harg]
        exact congrArg _ (String.toList_injective (by simp))
      · simp [hdigits size hnumber]
    · obtain ⟨idx, hidx, rfl⟩ := List.mem_map.mp harg
      obtain ⟨name, -, hname⟩ := List.mem_filterMap.mp hidx
      exact ⟨idx, rfl, hdigits idx (hextra name idx hname)⟩
  have hsplit := split_join ' ' (List.cons_ne_nil _ _) fun arg harg => by
    obtain ⟨rest, rfl, hrest⟩ := hargs arg harg
    exact s.poolArg_noBlank (by simpa using hrest)
  intro arg harg
  rw [renderMinioHaPool_eq, poolArguments] at harg
  have hmem := hsplit ▸ harg
  obtain ⟨rest, hrest, -⟩ := hargs arg hmem
  exact ⟨rest, hrest⟩

/-- The worker's fragment occurs in the argument of a peer exactly when the
peer's address ends with the target's. -/
theorem contains_fragment_iff (s : Settings) {peers : Peers}
    (hp : roleDetect s.toEnv = some peers) {ip other : String} (hip : ip ∈ peers.PEERS_ARR)
    (hother : other ∈ peers.PEERS_ARR) (hne : ip ≠ "") (hport : s.workerPort = s.apiPort) :
    contains (poolArg s.apiPort s.drivesPerNode other)
        (targetPoolUrlFragment ip s.workerPort) = true ↔ ip.toList <:+ other.toList := by
  have hdotted := s.dotted_peer hp hip
  rw [contains_iff, toList_fragment, toList_poolArg, hport]
  refine fragment_infix ?_ ⟨?_, ?_⟩ ?_ ⟨?_, ?_⟩ ?_
  · simpa using hne
  · exact notMem_of_dotted hdotted (by decide) (by decide)
  · exact notMem_of_dotted hdotted (by decide) (by decide)
  · exact notMem_of_dotted (s.dotted_peer hp hother) (by decide) (by decide)
  · exact notMem_of_plain s.plain_apiPort (by decide)
  · exact notMem_of_plain s.plain_apiPort (by decide)
  · exact notMem_of_plain s.plain_drivesPerNode (by decide)

/-- The worker and the command line agree on a peer's pool exactly in the layout
of one pool per host, with four drives, a port that is not an empty value, and no
other peer whose address ends with the target's. -/
theorem decommissions_iff (s : Settings) {peers : Peers} (hp : roleDetect s.toEnv = some peers)
    {i : ℕ} {ip : String} (hi : peers.PEERS_ARR[i]? = some ip) (hne : ip ≠ "") :
    s.Decommissions peers i ip ↔
      s.haSize = none ∧ s.drivesPerNode = "4" ∧ s.MINIO_API_PORT ≠ some "" ∧
        ∀ j other, peers.PEERS_ARR[j]? = some other → ip.toList <:+ other.toList → j = i := by
  have hip : ip ∈ peers.PEERS_ARR := List.mem_of_getElem? hi
  have hslash := notMem_of_plain s.plain_apiPort (x := '/') (by decide)
  have hslash' := notMem_of_plain s.plain_workerPort (x := '/') (by decide)
  unfold Decommissions
  cases hsize : s.haSize with
  | some size =>
      refine iff_of_false ?_ (by simp)
      rintro ⟨k, -, hk, -⟩
      obtain ⟨rest, hrest⟩ := s.args_wide peers hsize _ (List.mem_of_getElem? hk)
      -- an address starts with a digit or a dot, and an alias with a letter
      have hl := congrArg String.toList hrest
      rw [poolUrlPattern_eq, toList_poolArg, toList_poolArg] at hl
      obtain ⟨c, cs, hc⟩ := List.exists_cons_of_ne_nil
        (show ip.toList ≠ [] by simpa using hne)
      have hm : c = 'm' := by
        simp [hc] at hl
        exact hl.1
      exact notMem_of_dotted (s.dotted_peer hp hip) (x := 'm') (by decide) (by decide)
        (by simp [hc, hm])
  | none =>
      have hargs := s.args_legacy hp (List.ne_nil_of_mem hip) hsize
      simp only [hargs, poolPlace, hsize, List.getElem?_map, true_and]
      constructor
      · rintro ⟨k, hk, harg, hfrag⟩
        obtain rfl := Option.some.inj hk
        rw [hi, Option.map_some, Option.some.injEq, poolUrlPattern_eq, poolArg_inj ip hslash hslash']
          at harg
        refine ⟨harg.2, s.workerPort_eq_iff.mp harg.1.symm, fun j other hj hsuffix => ?_⟩
        apply (hfrag j (poolArg s.apiPort s.drivesPerNode other) (by rw [hj]; rfl)).mp
        exact (s.contains_fragment_iff hp hip (List.mem_of_getElem? hj) hne harg.1.symm).mpr hsuffix
      · rintro ⟨hdrives, hport, hsuffix⟩
        have hworker := s.workerPort_eq_iff.mpr hport
        refine ⟨i, rfl, ?_, fun j arg hj => ?_⟩
        · rw [hi, Option.map_some, Option.some.injEq, poolUrlPattern_eq,
            poolArg_inj ip hslash hslash']
          exact ⟨hworker.symm, hdrives⟩
        · obtain ⟨other, hother, rfl⟩ := Option.map_eq_some_iff.mp hj
          rw [s.contains_fragment_iff hp hip (List.mem_of_getElem? hother) hne hworker]
          constructor
          · exact hsuffix j other hother
          · rintro rfl
            rw [hi] at hother
            exact Option.some.inj hother ▸ List.suffix_refl _

end Settings

/-- Two peers in the default layout. -/
def twoPeers : Settings where
  PEER_IPS := "10.0.0.1,10.0.0.2"
  PEER_NAMES := some "node-1,node-2"
  MINIO_API_PORT := none
  MINIO_DRIVES_PER_NODE := none
  MINIO_HA_POOL_SIZE := none
  dotted := by decide
  plainPort := by simp
  plainDrives := by simp

/-- Three peers in one wide pool. -/
def threePeers : Settings where
  PEER_IPS := "10.0.0.1,10.0.0.2,10.0.0.3"
  PEER_NAMES := some "node-1,node-2,node-3"
  MINIO_API_PORT := none
  MINIO_DRIVES_PER_NODE := none
  MINIO_HA_POOL_SIZE := some "3"
  dotted := by decide
  plainPort := by simp
  plainDrives := by simp

theorem decommissions_two : twoPeers.Decommissions
    ⟨["10.0.0.1", "10.0.0.2"], ["node-1", "node-2"], rfl⟩ 1 "10.0.0.2" := by
  have hp : roleDetect twoPeers.toEnv =
      some ⟨["10.0.0.1", "10.0.0.2"], ["node-1", "node-2"], rfl⟩ := by
    decide +kernel
  refine (twoPeers.decommissions_iff hp (i := 1) rfl (by decide)).mpr
    ⟨by decide +kernel, by decide +kernel, by decide, ?_⟩
  intro j other hj hsuffix
  match j with
  | 0 =>
      cases hj
      exact absurd hsuffix (by decide +kernel)
  | 1 => rfl
  | j + 2 => cases hj

/-- The only argument is the wide pool, and the worker asks for a pool of one host. -/
theorem wide_pool_missed : ∃ (s : Settings) (peers : Peers) (i : ℕ) (ip : String),
    roleDetect s.toEnv = some peers ∧ peers.PEERS_ARR[i]? = some ip ∧ ip ≠ "" ∧
      ¬ s.Decommissions peers i ip := by
  let peers : Peers := ⟨["10.0.0.1", "10.0.0.2", "10.0.0.3"], ["node-1", "node-2", "node-3"], rfl⟩
  refine ⟨threePeers, peers, 1, "10.0.0.2", by decide +kernel, rfl, by decide, ?_⟩
  rintro ⟨k, hk, harg, -⟩
  have hzero : threePeers.poolPlace peers 1 = some 0 := by decide +kernel
  obtain rfl := Option.some.inj (hzero.symm.trans hk)
  exact absurd harg (by decide +kernel)

end MilvusOnprem.PoolAgreement
