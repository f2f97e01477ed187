import MilvusOnprem.EditedSource
import MilvusOnprem.RoleDetect
import MilvusOnprem.EnvSync
import MilvusOnprem.IssuedEnv

/-!
# The role that a host finds after a sync

`_sync_cluster_env_and_render` writes the ips and the names of the peers as two lists, and
`role_detect` of a shell reads them back together with the values that `cluster.env` pins. The
shell finds the peers of the mirror if each list stands on a line of its own and is read there
as it is. A list of names that is written behind an unfinished line is lost, and then the shell
makes the names up by position.
-/
namespace MilvusOnprem.SyncedRole

open PythonText MilvusOnprem.Topology TopologyWatcher Joining OrderedPeers EnvText EnvUpsert EnvFormat EditedSource
open ShellSource Assignments RoleDetect
open EnvSync (syncStart newPeerIps newPeerNames orderedPeers joinable)
open SharedSettings (Unbroken)
open MinioRender (readArray)
open PulsarDeploys (Vars value)

/-- `_sync_cluster_env_and_render` on the text of `cluster.env`. -/
def syncClusterEnv (config : DaemonConfig) (peers : Mirror) (text : String) : String :=
  match syncStart config peers with
  | .peerIps ordered =>
      upsertKv "PEER_NAMES" (newPeerNames ordered) (upsertKv "PEER_IPS" (newPeerIps ordered) text)
  | _ => text

/-- A `cluster.env` that pins the own name and ip, and has at most one line for each list. -/
structure Pinned (config : DaemonConfig) (lines : List Line) : Prop where
  unbroken : ∀ line ∈ lines, Unbroken line.render
  named : config.nodeName ≠ ""
  addressed : config.localIp ≠ ""
  nodeName : last "NODE_NAME" (shellEntries lines) = some config.nodeName
  localIp : last "LOCAL_IP" (shellEntries lines) = some config.localIp
  ips : lines.countP (Line.names "PEER_IPS") ≤ 1
  names : lines.countP (Line.names "PEER_NAMES") ≤ 1

/-- The peers with an ip, in the order of their nodes. -/
structure Listed (peers : Mirror) (ordered : List (String × String)) : Prop where
  sorted : ordered.Pairwise Before
  mem : ∀ name ip, (name, ip) ∈ ordered ↔ ∃ info, peers.get name = some info ∧ usedIp info = some ip

/-- The role of this host among the peers. -/
structure HasRole (config : DaemonConfig) (ordered : List (String × String)) (vars : Vars) (r : Role) : Prop where
  size : r.CLUSTER_SIZE = ordered.length
  ips : r.PEERS_ARR = ordered.map Prod.snd
  names : r.PEER_NAMES = ordered.map Prod.fst
  place : ∃ i : ℕ, ordered[i]? = some (config.nodeName, config.localIp) ∧
    r.toPlace = ⟨toString (i + 1), config.nodeName, config.localIp⟩
  pulsar : ∀ ip, (pulsarHost vars, ip) ∈ ordered → r.PULSAR_HOST_IP = ip

/-- `role_detect` on the file does not die, and gives the role. -/
def Reads (host : Host) (config : DaemonConfig) (ordered : List (String × String)) (text : String) : Prop :=
  ∃ vars r, source text = some vars ∧ roleDetect host vars = .ok r ∧ HasRole config ordered vars r

/-- What the sync writes is read back, and without a list to write the file stays. -/
structure Follows (host : Host) (config : DaemonConfig) (peers : Mirror) (text : String) : Prop where
  written : ∀ ordered, syncStart config peers = .peerIps ordered →
    Listed peers ordered ∧ Reads host config ordered (syncClusterEnv config peers text)
  skipped : (∀ ordered, syncStart config peers ≠ .peerIps ordered) → syncClusterEnv config peers text = text

/-! ## The files that are read back -/

/-- The names that `role_detect` makes up. -/
def positional (size : ℕ) : List String := (List.range size).map fun i => "node-" ++ toString (i + 1)

/-- `FORCE_NODE_INDEX` is not set, or it is the own number and picks the own entry. -/
def PicksSelf (host : Host) (config : DaemonConfig) (ordered : List (String × String)) (index : String) : Prop :=
  index = "" ∨ ∃ (i : ℕ) (j : ℤ), ordered[i]? = some (config.nodeName, config.localIp) ∧
    index = toString (i + 1) ∧ host.minusOne index = some j ∧
      element (ordered.map Prod.snd) j = some config.localIp ∧
        element (ordered.map Prod.fst) j = some config.nodeName

/-- The edit has a line for itself: one that sets the key, or the end of a finished file. -/
def HasLine (key : String) (lines : List Line) : Prop :=
  (∃ line ∈ lines, line.names key = true) ∨ ∀ line ∈ lines.getLast?, ∃ spaces h, line = .blank spaces h

/-- The line of `PEER_IPS` is finished when it is written. -/
def NamesApart (lines : List Line) : Prop :=
  HasLine "PEER_NAMES" lines ∨ ∀ line ∈ lines.getLast?, line.names "PEER_IPS" = true

/-- The list of names is lost in the last line, but the shell makes the same names up. -/
structure MadeUp (ordered : List (String × String)) (lines : List Line) : Prop where
  positional : ordered.map Prod.fst = positional ordered.length
  followed : ∀ line ∈ lines.getLast?, ∃ es,
    sourceLine (line.render ++ assignment "PEER_NAMES" (newPeerNames ordered)).toList = some es
  spared : ∀ s, lines.getLast? = some (.setting s) → s.name ≠ "FORCE_NODE_INDEX" ∧
    (value (shellEntries lines) "FORCE_NODE_INDEX" = "" → s.name ≠ "NODE_NAME" ∧ s.name ≠ "LOCAL_IP")

structure Readable (host : Host) (config : DaemonConfig) (ordered : List (String × String)) (lines : List Line) :
    Prop where
  ips : Literal (newPeerIps ordered)
  unbroken : '\r' ∉ (newPeerIps ordered).toList
  line : HasLine "PEER_IPS" lines
  picks : PicksSelf host config ordered (value (shellEntries lines) "FORCE_NODE_INDEX")
  apart : NamesApart lines →
    Literal (newPeerNames ordered) ∧ (ordered.map Prod.fst).getLast? ≠ some ""
  joined : ¬NamesApart lines → MadeUp ordered lines

/-! ## What the sync writes -/

/-- The list of a sync: the own entry is in it, and every field can be told from the next one. -/
structure Members (config : DaemonConfig) (ordered : List (String × String)) : Prop where
  self : (config.nodeName, config.localIp) ∈ ordered
  nodup : (ordered.map Prod.fst).Nodup
  ips : ∀ p ∈ ordered, p.2 ≠ ""
  commas : ∀ p ∈ ordered, ',' ∉ p.1.toList ∧ ',' ∉ p.2.toList

theorem usedIp_ne_empty {info : Json} {ip : String} (hjoin : joinable info = true) (h : usedIp info = some ip) :
    ip ≠ "" := by
  cases info with
  | obj fields =>
      simp only [usedIp] at h
      split at h
      · next v hv =>
          split_ifs at h with htruthy
          simp only [joinable, hv] at hjoin
          split at hjoin
          · next s hs =>
              cases Option.some.inj hs
              cases h
              simpa [Json.truthy, ipText] using htruthy
          · next hs => cases hs
          · next w hw =>
              cases Option.some.inj hw
              rw [htruthy] at hjoin
              cases hjoin
      · cases h
  | _ => cases h

theorem listed_of_start {config : DaemonConfig} {peers : Mirror} {ordered : List (String × String)}
    (h : syncStart config peers = .peerIps ordered) : Listed peers ordered ∧ (∀ p ∈ ordered, p.2 ≠ "") ∧
      (config.localIp ≠ "" → config.localIp ∈ ordered.map Prod.snd) := by
  have hordered : orderedPeers peers = .ok ordered := by
    rw [syncStart] at h
    split at h
    · next list hlist =>
        split_ifs at h
        cases h
        exact hlist
    · cases h
  have hguard : config.localIp ≠ "" → config.localIp ∈ ordered.map Prod.snd := by
    intro hne
    rw [syncStart, hordered] at h
    simp only at h
    split_ifs at h with hempty hmissing
    exact not_not.mp fun hmem => hmissing ⟨hne, hmem⟩
  rw [orderedPeers] at hordered
  split at hordered
  · next list hlist =>
      split_ifs at hordered with hjoin
      cases hordered
      have hmem : ∀ name ip, (name, ip) ∈ ordered ↔ ∃ info, peers.get name = some info ∧ usedIp info = some ip := by
        intro name ip
        rw [mem_sortedPeers hlist]
        exact exists_congr fun info => and_congr_left fun _ => OrderedMap.mem_entries
      refine ⟨⟨sortedPeers_pairwise ?_ hlist, hmem⟩, fun p hp => ?_, hguard⟩
      · exact peers.sorted.imp fun hlt => hlt.ne
      · obtain ⟨info, hinfo, hip⟩ := (hmem p.1 p.2).mp hp
        exact usedIp_ne_empty (List.all_eq_true.mp hjoin _ (OrderedMap.mem_entries.mpr hinfo)) hip
  · cases hordered

/-! ## What `role_detect` finds -/

section Reader

variable {host : Host} {config : DaemonConfig} {ordered : List (String × String)} {vars : Vars} {r : Role}

theorem bind_ok {α β : Type} {x : Except String α} {f : α → Except String β} {b : β} :
    x.bind f = .ok b ↔ ∃ a, x = .ok a ∧ f a = .ok b := by
  cases x <;> simp [Except.bind]

theorem roleDetect_ok : roleDetect host vars = .ok r ↔ value vars "PEER_IPS" ≠ "" ∧
    r.PEERS_ARR = readArray (value vars "PEER_IPS") ∧
    peerNames r.PEERS_ARR.length (value vars "PEER_NAMES") = .ok r.PEER_NAMES ∧
    pulsarHostIp r.PEERS_ARR r.PEER_NAMES (pulsarHost vars) = .ok r.PULSAR_HOST_IP ∧
    located host vars r.PEERS_ARR r.PEER_NAMES = .ok r.toPlace := by
  by_cases hips : value vars "PEER_IPS" = ""
  · rw [roleDetect, if_pos hips]
    exact iff_of_false (by simp only [reduceCtorEq, not_false_eq_true]) fun h => h.1 hips
  · have hsteps : roleDetect host vars =
        (peerNames (readArray (value vars "PEER_IPS")).length (value vars "PEER_NAMES")).bind fun names =>
          (pulsarHostIp (readArray (value vars "PEER_IPS")) names (pulsarHost vars)).bind fun pulsar =>
            (located host vars (readArray (value vars "PEER_IPS")) names).bind fun place =>
              .ok ⟨place, readArray (value vars "PEER_IPS"), names, pulsar⟩ := by
      rw [roleDetect, if_neg hips]
      rfl
    rw [hsteps]
    simp only [bind_ok, Except.ok.injEq]
    generalize readArray (value vars "PEER_IPS") = arr
    constructor
    · rintro ⟨names, hnames, pulsar, hpulsar, place, hplace, rfl⟩
      exact ⟨hips, rfl, hnames, hpulsar, hplace⟩
    · rintro ⟨-, rfl, hnames, hpulsar, hplace⟩
      exact ⟨_, hnames, _, hpulsar, _, hplace, rfl⟩

theorem peerNames_ok {size : ℕ} {csv : String} {names : List String} (h : peerNames size csv = .ok names) :
    readArray csv = names ∧ csv ≠ "" ∨ csv = "" ∧ names = positional size := by
  rw [peerNames] at h
  split_ifs at h with hcsv
  · dsimp only at h
    split_ifs at h
    exact .inl ⟨Except.ok.inj h, hcsv⟩
  · exact .inr ⟨not_not.mp hcsv, (Except.ok.inj h).symm⟩

theorem zip_ordered (ordered : List (String × String)) :
    (ordered.map Prod.fst).zip (ordered.map Prod.snd) = ordered := by
  rw [List.zip_map', List.map_id'' fun p => rfl]

/-- The ip of the host of Pulsar. -/
theorem pulsarHostIp_ordered (h : Members config ordered) (pulsar : String) :
    ∃ ip, pulsarHostIp (ordered.map Prod.snd) (ordered.map Prod.fst) pulsar = .ok ip ∧
      ∀ ip', (pulsar, ip') ∈ ordered → ip = ip' := by
  unfold pulsarHostIp
  rw [zip_ordered]
  cases hfind : ordered.find? fun p => p.1 = pulsar with
  | none =>
      obtain ⟨p, rest, rfl⟩ := List.exists_cons_of_ne_nil (List.ne_nil_of_mem h.self)
      refine ⟨p.2, by simp, fun ip' hip' => ?_⟩
      exact absurd (decide_eq_true rfl) (List.find?_eq_none.mp hfind _ hip')
  | some p =>
      have hp := List.mem_of_find?_eq_some hfind
      have hname : p.1 = pulsar := by simpa using List.find?_some hfind
      refine ⟨p.2, by simp [h.ips p hp], fun ip' hip' => ?_⟩
      have hsame := (List.inj_on_of_nodup_map h.nodup) hp hip' hname
      rw [hsame]

/-- The own entry is found by its name, or picked by its number. -/
theorem located_self (h : Members config ordered) (hnamed : config.nodeName ≠ "") (haddressed : config.localIp ≠ "")
    (hpicks : PicksSelf host config ordered (value vars "FORCE_NODE_INDEX"))
    (hpinned : value vars "FORCE_NODE_INDEX" = "" →
      value vars "NODE_NAME" = config.nodeName ∧ value vars "LOCAL_IP" = config.localIp) :
    ∃ i : ℕ, ordered[i]? = some (config.nodeName, config.localIp) ∧
      located host vars (ordered.map Prod.snd) (ordered.map Prod.fst) =
        .ok ⟨toString (i + 1), config.nodeName, config.localIp⟩ := by
  unfold located
  dsimp only
  by_cases hindex : value vars "FORCE_NODE_INDEX" = ""
  · obtain ⟨hname, hip⟩ := hpinned hindex
    have hmem : config.nodeName ∈ ordered.map Prod.fst := List.mem_map.mpr ⟨_, h.self, rfl⟩
    have hsome : ((ordered.map Prod.fst).findIdx? fun other => other = config.nodeName).isSome = true := by
      rw [List.findIdx?_isSome]
      exact List.any_eq_true.mpr ⟨_, hmem, decide_eq_true rfl⟩
    obtain ⟨i, hi⟩ := Option.isSome_iff_exists.mp hsome
    obtain ⟨hlt, hat, -⟩ := List.findIdx?_eq_some_iff_getElem.mp hi
    rw [List.length_map] at hlt
    rw [List.getElem_map, decide_eq_true_eq] at hat
    have hentry : ordered[i] = (config.nodeName, config.localIp) :=
      List.inj_on_of_nodup_map h.nodup (List.getElem_mem hlt) h.self hat
    refine ⟨i, by rw [List.getElem?_eq_getElem hlt, hentry], ?_⟩
    rw [if_neg (not_not.mpr hindex), hname, if_pos hnamed, hi, hip]
    dsimp only
    rw [if_neg haddressed]
  · obtain ⟨i, j, hi, hnumber, hj, hip, hname⟩ := hpicks.resolve_left hindex
    refine ⟨i, hi, ?_⟩
    rw [if_pos hindex, forced, hj]
    dsimp only
    rw [hip, hname, hnumber]

theorem picksSelf_of_located {i : ℕ} (hi : ordered[i]? = some (config.nodeName, config.localIp))
    (h : located host vars (ordered.map Prod.snd) (ordered.map Prod.fst) =
      .ok ⟨toString (i + 1), config.nodeName, config.localIp⟩) :
    PicksSelf host config ordered (value vars "FORCE_NODE_INDEX") ∧
      (value vars "FORCE_NODE_INDEX" = "" → value vars "NODE_NAME" ≠ "" →
        value vars "NODE_NAME" = config.nodeName ∧
          (value vars "LOCAL_IP" ≠ "" → value vars "LOCAL_IP" = config.localIp)) := by
  unfold located at h
  dsimp only at h
  by_cases hindex : value vars "FORCE_NODE_INDEX" = ""
  · refine ⟨.inl hindex, fun _ hname => ?_⟩
    rw [if_neg (not_not.mpr hindex), if_pos hname] at h
    split at h
    · next k hk =>
        obtain ⟨-, hself, hip⟩ := (Place.mk.injEq ..).mp (Except.ok.inj h)
        exact ⟨hself, fun hne => by rwa [if_neg hne] at hip⟩
    · simp only [reduceCtorEq] at h
  · refine ⟨.inr ?_, fun he => absurd he hindex⟩
    rw [if_pos hindex, forced] at h
    split at h
    · next j hj =>
        split at h
        · next ip name hip hname =>
            obtain ⟨hnumber, rfl, rfl⟩ := (Place.mk.injEq ..).mp (Except.ok.inj h)
            exact ⟨i, j, hi, hnumber, hj, hip, hname⟩
        · simp only [reduceCtorEq] at h
    · simp only [reduceCtorEq] at h

theorem last_of_value {key : String} (h : value vars key ≠ "") : last key vars = some (value vars key) := by
  rw [value] at h ⊢
  cases hlast : last key vars with
  | none =>
      rw [hlast] at h
      exact absurd rfl h
  | some v => rfl

/-- The fields of an array are parts of the first line of its text. -/
theorem mem_readArray {s field : String} (h : field ∈ readArray s) :
    ∀ c ∈ field.toList, c ∈ s.toList ∧ c ≠ '\n' := by
  have hfields : ∀ field ∈ split ',' (String.ofList (s.toList.takeWhile fun c => c ≠ '\n')),
      ∀ c ∈ field.toList, c ∈ s.toList ∧ c ≠ '\n' := by
    intro field hfield c hc
    obtain ⟨hmem, -⟩ := mem_split hfield hc
    rw [String.toList_ofList] at hmem
    exact ⟨(List.takeWhile_prefix _).mem hmem, by simpa using List.mem_takeWhile_imp hmem⟩
  unfold readArray at h
  dsimp only at h
  split_ifs at h
  · exact hfields field (List.mem_of_mem_dropLast h)
  · exact hfields field h

/-- The shell reads the two lists from these variables. -/
theorem reads_of_values {text : String} (h : Members config ordered) (hnamed : config.nodeName ≠ "")
    (haddressed : config.localIp ≠ "") (hsource : source text = some vars)
    (hips : last "PEER_IPS" vars = some (newPeerIps ordered)) (hline : '\n' ∉ (newPeerIps ordered).toList)
    (hnames : peerNames ordered.length (value vars "PEER_NAMES") = .ok (ordered.map Prod.fst))
    (hpicks : PicksSelf host config ordered (value vars "FORCE_NODE_INDEX"))
    (hpinned : value vars "FORCE_NODE_INDEX" = "" →
      value vars "NODE_NAME" = config.nodeName ∧ value vars "LOCAL_IP" = config.localIp) :
    Reads host config ordered text := by
  have hne : ordered.map Prod.snd ≠ [] := by simpa using List.ne_nil_of_mem h.self
  have hvalue : value vars "PEER_IPS" = newPeerIps ordered := by rw [value, hips, Option.getD_some]
  have hread : readArray (newPeerIps ordered) = ordered.map Prod.snd := by
    refine (readArray_join_iff hne fun s hs => ?_).mpr fun hlast => ?_
    · obtain ⟨p, hp, rfl⟩ := List.mem_map.mp hs
      exact ⟨(h.commas p hp).2, fun hmem => hline (mem_join_of_mem hs hmem)⟩
    · obtain ⟨p, hp, hempty⟩ := List.mem_map.mp (List.mem_of_getLast? hlast)
      exact h.ips p hp hempty
  have hset : value vars "PEER_IPS" ≠ "" := by
    intro hempty
    rw [hvalue] at hempty
    rw [hempty] at hread
    exact hne (hread.symm.trans (by decide))
  obtain ⟨pulsar, hpulsar, hhost⟩ := pulsarHostIp_ordered h (pulsarHost vars)
  obtain ⟨i, hi, hplace⟩ := located_self h hnamed haddressed hpicks hpinned
  refine ⟨vars, ⟨⟨toString (i + 1), config.nodeName, config.localIp⟩, ordered.map Prod.snd, ordered.map Prod.fst,
    pulsar⟩, hsource, roleDetect_ok.mpr ⟨hset, ?_, ?_, hpulsar, hplace⟩, ?_⟩
  · rw [hvalue, hread]
  · rw [List.length_map]
    exact hnames
  · exact ⟨List.length_map _, rfl, rfl, ⟨i, hi, rfl⟩, hhost⟩

/-- What the variables are if the shell finds the role. -/
structure Found (host : Host) (config : DaemonConfig) (ordered : List (String × String)) (vars : Vars) : Prop where
  ips : ∃ v, last "PEER_IPS" vars = some v ∧ readArray v = ordered.map Prod.snd
  names : (∃ v, last "PEER_NAMES" vars = some v ∧ v ≠ "" ∧ readArray v = ordered.map Prod.fst) ∨
    value vars "PEER_NAMES" = "" ∧ ordered.map Prod.fst = positional ordered.length
  picks : PicksSelf host config ordered (value vars "FORCE_NODE_INDEX")
  pinned : value vars "FORCE_NODE_INDEX" = "" → value vars "NODE_NAME" ≠ "" →
    value vars "NODE_NAME" = config.nodeName ∧
      (value vars "LOCAL_IP" ≠ "" → value vars "LOCAL_IP" = config.localIp)

theorem found_of_reads {text : String} (h : Reads host config ordered text) :
    ∃ vars, source text = some vars ∧ Found host config ordered vars := by
  obtain ⟨vars, r, hsource, hdetect, hrole⟩ := h
  obtain ⟨hset, harr, hnames, -, hplace⟩ := roleDetect_ok.mp hdetect
  obtain ⟨i, hi, hself⟩ := hrole.place
  rw [hrole.ips] at harr hnames hplace
  rw [hrole.names] at hnames hplace
  rw [hself] at hplace
  rw [List.length_map] at hnames
  obtain ⟨hpicks, hpinned⟩ := picksSelf_of_located hi hplace
  refine ⟨vars, hsource, ⟨_, last_of_value hset, harr.symm⟩, ?_, hpicks, hpinned⟩
  rcases peerNames_ok hnames with ⟨hread, hne⟩ | ⟨hempty, hpositional⟩
  · exact .inl ⟨_, last_of_value hne, hne, hread⟩
  · exact .inr ⟨hempty, hpositional⟩

end Reader

/-! ## The names that are made up -/

theorem plain_positional (size : ℕ) : ∀ s ∈ positional size, IssuedEnv.isWord s = true ∧ s ≠ "" := by
  intro s hs
  obtain ⟨i, -, rfl⟩ := List.mem_map.mp hs
  refine ⟨List.all_eq_true.mpr fun c hc => ?_, fun hempty => ?_⟩
  · rw [String.toList_append, List.mem_append] at hc
    rcases hc with hc | hc
    · revert c
      decide
    · have hdigits : (toString (i + 1)).toList = Nat.toDigits 10 (i + 1) := by simp [toString, Nat.repr]
      rw [hdigits] at hc
      have hdigit := Nat.isDigit_of_mem_toDigits (by decide) (by decide) hc
      have hname : isNameChar c = true := by
        rw [isNameChar, Bool.or_eq_true]
        right
        simpa [Char.isDigit, UInt32.le_iff_toNat_le] using hdigit
      rw [hname, Bool.true_or]
  · have hlist := congrArg String.toList hempty
    simp at hlist

theorem literal_plain {s : String} (h : ∀ c ∈ s.toList, IssuedEnv.isPlain c = true) : Literal s := by
  have hnone : ∀ d, IssuedEnv.isPlain d = false → d ∉ s.toList := by
    intro d hd hmem
    rw [h d hmem] at hd
    cases hd
  exact ⟨IssuedEnv.literalFrom_plain h, hnone _ (by decide), hnone _ (by decide)⟩

theorem literal_positional (size : ℕ) : Literal (join "," (positional size)) :=
  literal_plain (IssuedEnv.plain_join fun s hs => (plain_positional size s hs).1)

/-! ## The two edits -/

section Edits

variable {config : DaemonConfig} {ordered : List (String × String)} {lines before behind : List Line} {line : Line}
  {ips names text : String}

theorem isName_peerIps : isName "PEER_IPS".toList = true := by decide

theorem isName_peerNames : isName "PEER_NAMES".toList = true := by decide

/-- An edit takes place at one of the lines. -/
theorem exists_spot (key : String) (hne : lines ≠ []) : ∃ before line behind, lines = before ++ line :: behind ∧
    Cut key (lines.map Line.render) (before.map Line.render) line.render (behind.map Line.render) := by
  obtain ⟨texts, text, rest, hcut⟩ := exists_cut key (List.map_eq_nil_iff.not.mpr hne : lines.map Line.render ≠ [])
  obtain ⟨before, others, hlines, hbefore, hothers⟩ := List.map_eq_append_iff.mp hcut.lines
  obtain ⟨line, behind, rfl, hline, hbehind⟩ := List.map_eq_cons_iff.mp hothers
  subst hbefore hline hbehind
  exact ⟨before, line, behind, hlines, hcut⟩

theorem countP_render {key : String} (hkey : isName key.toList = true) (lines : List Line) :
    (lines.map Line.render).countP (sets key) = lines.countP (Line.names key) := by
  rw [List.countP_map]
  exact List.countP_congr fun line _ => by rw [Function.comp_apply, sets_render hkey]

theorem names_of_entry {e : String × String} (h : e ∈ shellEntries [line]) : line.names e.1 = true := by
  obtain ⟨other, hother, he⟩ := List.mem_filterMap.mp h
  rw [List.mem_singleton.mp hother] at he
  cases line with
  | setting s =>
      cases Option.some.inj he
      exact decide_eq_true rfl
  | _ => cases he

theorem own_entries {key : String} (h : Own key line) : ∀ e ∈ shellEntries [line], e.1 = key := by
  intro e he
  have hnames := names_of_entry he
  rcases h with h | ⟨spaces, hspaces, rfl⟩
  · obtain ⟨s, rfl, hs⟩ := names_iff.mp h
    exact (of_decide_eq_true hnames).symm.trans hs
  · cases hnames

/-- The line that is edited is one of its own if the file has a line for the key. -/
theorem hasLine_iff_own {key : String} (hkey : isName key.toList = true) (hlines : lines = before ++ line :: behind)
    (hcut : Cut key (lines.map Line.render) (before.map Line.render) line.render (behind.map Line.render)) :
    HasLine key lines ↔ Own key line := by
  have hfound : line.names key = true ∨ behind = [] := by
    rw [← sets_render hkey]
    exact hcut.found.imp_right List.map_eq_nil_iff.mp
  constructor
  · intro h
    by_cases hnames : line.names key = true
    · exact .inl hnames
    · obtain rfl := hfound.resolve_left hnames
      rcases h with ⟨other, hother, hset⟩ | hlast
      · rw [hlines, List.mem_append, List.mem_singleton] at hother
        rcases hother with hother | rfl
        · have hnone := hcut.before _ (List.mem_map.mpr ⟨other, hother, rfl⟩)
          rw [sets_render hkey, hset] at hnone
          cases hnone
        · exact absurd hset hnames
      · exact .inr (hlast line (by rw [hlines]; simp))
  · rintro (hnames | ⟨spaces, hspaces, rfl⟩)
    · exact .inl ⟨line, hlines ▸ List.mem_append_right _ List.mem_cons_self, hnames⟩
    · obtain rfl := hfound.resolve_left (by simp [Line.names])
      refine .inr fun last hlast => ⟨spaces, hspaces, ?_⟩
      rw [hlines, List.getLast?_concat, Option.mem_some] at hlast
      exact hlast.symm

/-- A word of the edited line that names another key than its setting, and is as long as the
value, is the value itself on a line of its own. -/
theorem eq_of_long {key value : String} {es : List (String × String)} (hkey : isName key.toList = true)
    (hvalue : '\n' ∉ value.toList) (hes : sourceLine (written key value line.render).toList = some es)
    {e : String × String} (he : e ∈ es) (hother : line.names e.1 = true → e.1 = key)
    (hlong : value.toList.length ≤ e.2.toList.length ∨ Literal value) :
    Own key line ∧ Literal value ∧ e = (key, value) := by
  by_cases hown : Own key line
  · rw [sourceLine_own hkey hown] at hes
    have hliteral : Literal value := by
      rcases hlong with hlong | hliteral
      · obtain ⟨x, rest, rfl, hrest, hhead⟩ := sourceLine_head hkey hvalue hes
        rcases List.mem_cons.mp he with rfl | he
        · exact (hhead hlong).1
        · exact absurd hlong (not_le.mpr (hrest e he))
      · exact hliteral
    rw [sourceLine_assigned hkey hliteral] at hes
    cases Option.some.inj hes
    exact ⟨hown, hliteral, List.mem_singleton.mp he⟩
  · have hnames : line.names e.1 = false := by
      rw [Bool.eq_false_iff]
      exact fun h => hown (.inl (hother h ▸ h))
    obtain ⟨hshort, hliteral⟩ := sourceLine_joined hkey hown hes
    rcases hlong with hlong | hvalue'
    · rcases hshort e he with h | h
      · rw [hnames] at h
        cases h
      · exact absurd hlong (not_le.mpr h)
    · rw [hliteral hvalue'] at he
      obtain ⟨e', he', rfl⟩ := List.mem_map.mp he
      rw [names_of_entry he'] at hnames
      cases hnames

/-- A line that is written behind another text sets the names only if the text does. -/
theorem sets_of_joined (h : sets "PEER_NAMES" (text ++ assignment "PEER_IPS" ips) = true) :
    sets "PEER_NAMES" text = true := by
  rw [sets, startsWith, List.isPrefixOf_iff_prefix] at h ⊢
  rw [show (text ++ assignment "PEER_IPS" ips).toList = text.toList ++ (assignment "PEER_IPS" ips).toList from
    String.toList_append] at h
  rcases List.prefix_or_prefix_of_prefix h (List.prefix_append _ _) with hkey | ⟨rest, hrest⟩
  · exact hkey
  · rw [← hrest, List.prefix_append_right_inj, toList_assignment] at h
    cases rest with
    | nil => rw [← hrest, List.append_nil]
    | cons c rest =>
        have hc : c = 'P' := (List.cons_prefix_cons.mp h).1
        subst hc
        -- there is one 'P' in the name, and it is the first character
        cases htext : text.toList with
        | nil =>
            rw [htext, List.nil_append] at hrest
            rw [hrest] at h
            simp [List.cons_prefix_cons] at h
        | cons d text' =>
            rw [htext, List.cons_append] at hrest
            have hmem : 'P' ∈ ("PEER_NAMES" ++ "=").toList.tail := by
              rw [← hrest, List.tail_cons]
              exact List.mem_append_right _ List.mem_cons_self
            exact absurd hmem (by decide)

theorem sets_of_written (h : sets "PEER_NAMES" (written "PEER_IPS" ips text) = true) : sets "PEER_NAMES" text = true := by
  rw [written] at h
  split_ifs at h
  · have hassigned : sets "PEER_NAMES" (assignment "PEER_IPS" ips) = true → False := by
      intro hsets
      have hempty : sets "PEER_NAMES" "" = true := sets_of_joined (by simpa using hsets)
      exact absurd hempty (by decide)
    exact (hassigned h).elim
  · exact sets_of_joined h

/-- After the first edit there is still at most one line for the names. -/
theorem countP_edited {texts texts' rest : List String} (hcut : Cut "PEER_IPS" texts texts' text rest)
    (hcount : texts.countP (sets "PEER_NAMES") ≤ 1) :
    (editLines "PEER_IPS" ips texts).countP (sets "PEER_NAMES") ≤ 1 := by
  refine le_trans ?_ hcount
  have hrest : (if rest = [] then [""] else rest).countP (sets "PEER_NAMES") = rest.countP (sets "PEER_NAMES") := by
    split_ifs with hlast
    · rw [hlast]
      decide
    · rfl
  rw [editLines_cut hcut, hcut.lines, List.countP_append, List.countP_append, List.countP_cons, List.countP_cons, hrest]
  have hwritten : (if sets "PEER_NAMES" (written "PEER_IPS" ips text) = true then 1 else 0) ≤
      if sets "PEER_NAMES" text = true then 1 else 0 := by
    split_ifs with hset hset'
    · exact le_rfl
    · exact absurd (sets_of_written hset) hset'
    · exact Nat.zero_le _
    · exact le_rfl
  omega

theorem blank_empty : ∀ c ∈ "".toList, isBlank c = true := by simp

/-- The end of a finished file. -/
def noLine : Line := .blank "" blank_empty

/-- The second edit is made at the line of the names, or at the last line of the file, which
the first edit may have finished. -/
theorem second_line (hbreaks : ∀ line ∈ lines, Unbroken line.render)
    (hcount : lines.countP (Line.names "PEER_IPS") ≤ 1) (hlines : lines = before ++ line :: behind)
    (hcut : Cut "PEER_IPS" (lines.map Line.render) (before.map Line.render) line.render (behind.map Line.render))
    {texts rest : List String} {text : String}
    (hsecond : Cut "PEER_NAMES" (textLines (upsertKv "PEER_IPS" ips (fileOf lines))) texts text rest) :
    ∃ l : Line, (∀ names, written "PEER_NAMES" names text = written "PEER_NAMES" names l.render) ∧
      l.names "PEER_IPS" = false ∧ (l = noLine ∧ sets "PEER_NAMES" text = true ∨
        sets "PEER_NAMES" text = false ∧ rest = [] ∧ text = l.render ∧ l = behind.getLast?.getD noLine) := by
  have hne : lines ≠ [] := by simp [hlines]
  rw [← textLines_fileOf hne hbreaks] at hcut
  by_cases hset : sets "PEER_NAMES" text = true
  · refine ⟨noLine, fun names => ?_, rfl, .inl ⟨rfl, hset⟩⟩
    rw [written, if_pos hset]
    simp [written, noLine, Line.render, sets, startsWith]
  · obtain rfl := hsecond.found.resolve_left hset
    have hlast := @getLast_upsertKv _ ips _ _ _ _ hcut
    have htext : text = (behind.getLast?.getD noLine).render := by
      rw [hsecond.lines, List.getLast?_concat, Option.some.injEq, List.getLast?_map] at hlast
      rw [hlast]
      cases behind.getLast? <;> rfl
    refine ⟨behind.getLast?.getD noLine, fun names => by rw [htext], ?_,
      .inr ⟨Bool.eq_false_iff.mpr hset, rfl, htext, rfl⟩⟩
    cases hbehind : behind.getLast? with
    | none => rfl
    | some l =>
        have halone := Cut.alone hcut (by rwa [textLines_fileOf hne hbreaks, countP_render isName_peerIps]) l.render
          (List.mem_map.mpr ⟨l, List.mem_of_getLast? hbehind, rfl⟩)
        rwa [sets_render isName_peerIps] at halone

end Edits

/-! ## The file between the edits -/

section Scene

variable {lines before behind : List Line} {line l : Line} {ips : String}

/-- What a shell reads from a line, if it can read it. -/
def entriesOf (text : String) : List (String × String) := (sourceLine text.toList).getD []

/-- A line is read, and it gives names only if the second edit finds it. -/
structure Tagged (text : String) : Prop where
  read : sourceLine text.toList = some (entriesOf text)
  tagged : ∀ e ∈ entriesOf text, e.1 = "PEER_NAMES" ↔ sets "PEER_NAMES" text = true

theorem entriesOf_render (line : Line) : entriesOf line.render = shellEntries [line] := by
  rw [entriesOf, sourceLine_render, Option.getD_some]

theorem tagged_render (line : Line) : Tagged line.render := by
  refine ⟨by rw [entriesOf_render, sourceLine_render], fun e he => ?_⟩
  rw [entriesOf_render] at he
  rw [sets_render isName_peerNames]
  have hnames := names_of_entry he
  constructor
  · intro hkey
    rwa [hkey] at hnames
  · intro hset
    obtain ⟨s, rfl, hs⟩ := names_iff.mp hset
    exact (of_decide_eq_true hnames).symm.trans hs

theorem entriesOf_own (hown : Own "PEER_IPS" line) (hliteral : Literal ips) :
    sourceLine (written "PEER_IPS" ips line.render).toList = some [("PEER_IPS", ips)] := by
  rw [sourceLine_own isName_peerIps hown, sourceLine_assigned isName_peerIps hliteral]

theorem tagged_own (hown : Own "PEER_IPS" line) (hliteral : Literal ips) :
    Tagged (written "PEER_IPS" ips line.render) := by
  have hes := entriesOf_own hown hliteral
  have hset : sets "PEER_NAMES" (written "PEER_IPS" ips line.render) ≠ true := by
    intro hset
    have hnames := sets_of_written hset
    rw [sets_render isName_peerNames] at hnames
    obtain ⟨s, rfl, hs⟩ := names_iff.mp hnames
    rcases hown with hown | ⟨spaces, hspaces, hblank⟩
    · rw [Line.names, decide_eq_true_eq, hs] at hown
      exact absurd hown (by decide)
    · cases hblank
  refine ⟨by rw [entriesOf, hes, Option.getD_some], fun e he => ?_⟩
  rw [entriesOf, hes, Option.getD_some] at he
  rw [List.mem_singleton.mp he]
  exact iff_of_false (show "PEER_IPS" ≠ "PEER_NAMES" by decide) hset

theorem sourceLines_tagged {texts : List String} (h : ∀ text ∈ texts, Tagged text) :
    sourceLines (texts.map String.toList) = some (texts.flatMap entriesOf) := by
  induction texts with
  | nil => rfl
  | cons text texts ih =>
      rw [List.map_cons, sourceLines_cons, (h text List.mem_cons_self).read,
        ih fun other hother => h other (List.mem_cons_of_mem _ hother), List.flatMap_cons]
      rfl

theorem flatMap_render (lines : List Line) : (lines.map Line.render).flatMap entriesOf = shellEntries lines := by
  induction lines with
  | nil => rfl
  | cons line lines ih =>
      rw [List.map_cons, List.flatMap_cons, ih, entriesOf_render, ← shellEntries_append]
      rfl

/-- The second edit, after the ips have a line of their own: what stands before its line and
behind it. -/
structure Scene (lines : List Line) (ips : String) (l : Line) (eb et : List (String × String)) : Prop where
  source : ∀ names : String, '\n' ∉ names.toList →
    source (upsertKv "PEER_NAMES" names (upsertKv "PEER_IPS" ips (fileOf lines))) =
      (sourceLine (written "PEER_NAMES" names l.render).toList).map fun ws => eb ++ (ws ++ et)
  ips : last "PEER_IPS" (eb ++ (shellEntries [l] ++ et)) = some ips
  others : ∀ key, key ≠ "PEER_IPS" → key ≠ "PEER_NAMES" →
    last key (eb ++ (shellEntries [l] ++ et)) = last key (shellEntries lines)
  names : ∀ e ∈ eb ++ et, e.1 ≠ "PEER_NAMES"
  free : l.names "PEER_NAMES" = false ∧ l.names "PEER_IPS" = false
  own : Own "PEER_NAMES" l ↔ NamesApart lines
  behind : ¬Own "PEER_NAMES" l → et = [] ∧ lines.getLast? = some l

/-- The lines between the edits are read, and give the ips and what else is in the file. -/
theorem edited_lines (hcount : lines.countP (Line.names "PEER_IPS") ≤ 1) (hlines : lines = before ++ line :: behind)
    (hcut : Cut "PEER_IPS" (lines.map Line.render) (before.map Line.render) line.render (behind.map Line.render))
    (hown : Own "PEER_IPS" line) (hliteral : Literal ips) :
    (∀ text ∈ editLines "PEER_IPS" ips (lines.map Line.render), Tagged text) ∧
      last "PEER_IPS" ((editLines "PEER_IPS" ips (lines.map Line.render)).flatMap entriesOf) = some ips ∧
      ∀ key, key ≠ "PEER_IPS" →
        last key ((editLines "PEER_IPS" ips (lines.map Line.render)).flatMap entriesOf) =
          last key (shellEntries lines) := by
  have hempty : Tagged "" ∧ entriesOf "" = [] := ⟨tagged_render noLine, entriesOf_render noLine⟩
  have hread : entriesOf (written "PEER_IPS" ips line.render) = [("PEER_IPS", ips)] := by
    rw [entriesOf, entriesOf_own hown hliteral, Option.getD_some]
  have hflat : (editLines "PEER_IPS" ips (lines.map Line.render)).flatMap entriesOf =
      shellEntries before ++ ([("PEER_IPS", ips)] ++ shellEntries behind) := by
    rw [editLines_cut hcut, List.flatMap_append, List.flatMap_cons, flatMap_render, hread]
    congr 2
    cases behind with
    | nil => simp [hempty.2, shellEntries]
    | cons next behind => rw [if_neg (by simp), flatMap_render]
  have hnone : last "PEER_IPS" (shellEntries behind) = none := by
    refine last_eq_none.mpr (shellEntries_key fun other hother => ?_)
    have halone := Cut.alone hcut (by rwa [countP_render isName_peerIps]) other.render
      (List.mem_map.mpr ⟨other, hother, rfl⟩)
    rwa [sets_render isName_peerIps] at halone
  refine ⟨fun text htext => ?_, ?_, fun key hkey => ?_⟩
  · rcases mem_editLines hcut (by rwa [countP_render isName_peerIps]) htext with rfl | rfl | ⟨hmem, -⟩
    · exact tagged_own hown hliteral
    · exact hempty.1
    · obtain ⟨other, -, rfl⟩ := List.mem_map.mp hmem
      exact tagged_render other
  · rw [hflat, last_append, last_append, hnone, last_singleton, if_pos rfl]
    rfl
  · have hline : last key (shellEntries [line]) = none := by
      refine last_eq_none.mpr fun e he => ?_
      rw [own_entries hown e he]
      exact hkey.symm
    have hold : shellEntries lines = shellEntries before ++ (shellEntries [line] ++ shellEntries behind) := by
      rw [hlines, ← List.singleton_append, shellEntries_append, shellEntries_append]
    rw [hflat, hold, last_append, last_append, last_append, last_append, hline, last_singleton, if_neg hkey.symm]

/-- The names are written on a line of their own if the file has one for them, or the line of
the ips is the last one. -/
theorem own_second (hlines : lines = before ++ line :: behind)
    (hcut : Cut "PEER_IPS" (lines.map Line.render) (before.map Line.render) line.render (behind.map Line.render))
    (hown : Own "PEER_IPS" line) {texts rest : List String} {text : String}
    (hsecond : Cut "PEER_NAMES" (editLines "PEER_IPS" ips (lines.map Line.render)) texts text rest)
    (hfree : l.names "PEER_IPS" = false) (hl : l = noLine ∧ sets "PEER_NAMES" text = true ∨
      sets "PEER_NAMES" text = false ∧ rest = [] ∧ text = l.render ∧ l = behind.getLast?.getD noLine) :
    Own "PEER_NAMES" l ↔ NamesApart lines := by
  have hlineNames : line.names "PEER_NAMES" = false := by
    rcases hown with hown | ⟨spaces, hspaces, rfl⟩
    · obtain ⟨s, rfl, hs⟩ := names_iff.mp hown
      simp [Line.names, hs]
    · rfl
  rcases hl with ⟨rfl, hset⟩ | ⟨hset, rfl, rfl, rfl⟩
  · refine iff_of_true (.inr ⟨_, _, rfl⟩) (.inl (.inl ?_))
    have hmem : text ∈ editLines "PEER_IPS" ips (lines.map Line.render) :=
      hsecond.lines ▸ List.mem_append_right _ List.mem_cons_self
    rw [editLines_cut hcut, List.mem_append, List.mem_cons] at hmem
    have hrender : ∀ {others : List Line}, text ∈ others.map Line.render → (∀ other ∈ others, other ∈ lines) →
        ∃ other ∈ lines, other.names "PEER_NAMES" = true := by
      intro others htext hothers
      obtain ⟨other, hother, rfl⟩ := List.mem_map.mp htext
      exact ⟨other, hothers other hother, by rwa [sets_render isName_peerNames] at hset⟩
    rcases hmem with hmem | rfl | hmem
    · exact hrender hmem fun other hother => hlines ▸ List.mem_append_left _ hother
    · have hnames := sets_of_written hset
      rw [sets_render isName_peerNames, hlineNames] at hnames
      cases hnames
    · split_ifs at hmem
      · rw [List.mem_singleton.mp hmem] at hset
        exact absurd hset (by decide)
      · exact hrender hmem fun other hother => hlines ▸ List.mem_append_right _ (List.mem_cons_of_mem _ hother)
  · have hnone : ∀ other ∈ lines, other.names "PEER_NAMES" = false := by
      intro other hother
      by_cases hline : other = line
      · rw [hline, hlineNames]
      · have hmem : other.render ∈ editLines "PEER_IPS" ips (lines.map Line.render) := by
          rw [hlines, List.mem_append, List.mem_cons] at hother
          rw [editLines_cut hcut, List.mem_append, List.mem_cons]
          rcases hother with hother | hother | hother
          · exact .inl (List.mem_map.mpr ⟨other, hother, rfl⟩)
          · exact absurd hother hline
          · have hmap : other.render ∈ behind.map Line.render := List.mem_map.mpr ⟨other, hother, rfl⟩
            rw [if_neg (List.ne_nil_of_mem hmap)]
            exact .inr (.inr hmap)
        rw [hsecond.lines, List.mem_append, List.mem_singleton] at hmem
        rw [← sets_render isName_peerNames]
        rcases hmem with hmem | hmem
        · exact hsecond.before _ hmem
        · rwa [hmem]
    cases hbehind : behind.getLast? with
    | none =>
        obtain rfl := List.getLast?_eq_none_iff.mp hbehind
        have hlast : lines.getLast? = some line := by rw [hlines, List.getLast?_concat]
        refine iff_of_true (.inr ⟨_, _, rfl⟩) ?_
        rcases hown with hown | hblank
        · exact .inr fun other hother => Option.some.inj (hlast.symm.trans hother) ▸ hown
        · exact .inl (.inr fun other hother => Option.some.inj (hlast.symm.trans hother) ▸ hblank)
    | some last =>
        have hlast : lines.getLast? = some last := by
          rw [hlines, List.getLast?_append_cons, List.getLast?_cons, hbehind]
          rfl
        rw [hbehind, Option.getD_some] at hfree
        rw [Option.getD_some]
        constructor
        · rintro (hnames | hblank)
          · rw [hnone last (List.mem_of_getLast? hlast)] at hnames
            cases hnames
          · exact .inl (.inr fun other hother => Option.some.inj (hlast.symm.trans hother) ▸ hblank)
        · rintro ((⟨other, hother, hnames⟩ | hblank) | hips)
          · rw [hnone other hother] at hnames
            cases hnames
          · exact .inr (hblank last hlast)
          · rw [hips last hlast] at hfree
            cases hfree

theorem exists_scene (hbreaks : ∀ line ∈ lines, Unbroken line.render) (hne : lines ≠ [])
    (hips : lines.countP (Line.names "PEER_IPS") ≤ 1) (hnames : lines.countP (Line.names "PEER_NAMES") ≤ 1)
    (hliteral : Literal ips) (hreturn : '\r' ∉ ips.toList) (hline : HasLine "PEER_IPS" lines) :
    ∃ l eb et, Scene lines ips l eb et := by
  obtain ⟨before, line, behind, hlines, hcut⟩ := exists_spot "PEER_IPS" hne
  have hown := (hasLine_iff_own isName_peerIps hlines hcut).mp hline
  obtain ⟨htagged, hedited, hothers⟩ := edited_lines hips hlines hcut hown hliteral
  have htext : textLines (upsertKv "PEER_IPS" ips (fileOf lines)) =
      editLines "PEER_IPS" ips (lines.map Line.render) := by
    rw [textLines_upsertKv isName_peerIps hliteral.oneLine hreturn, textLines_fileOf hne hbreaks]
  obtain ⟨texts, text, rest, hsecond⟩ := exists_cut "PEER_NAMES"
    (textLines_ne_nil (upsertKv "PEER_IPS" ips (fileOf lines)))
  obtain ⟨l, hwritten, hfree, hl⟩ := second_line hbreaks hips hlines hcut hsecond
  have halone : ∀ other ∈ rest, sets "PEER_NAMES" other = false := by
    refine Cut.alone hsecond ?_
    rw [htext]
    exact countP_edited hcut (by rwa [countP_render isName_peerNames])
  have hmem : ∀ other ∈ texts ++ text :: rest, Tagged other := by
    rw [← hsecond.lines, htext]
    exact htagged
  have hflat : (editLines "PEER_IPS" ips (lines.map Line.render)).flatMap entriesOf =
      texts.flatMap entriesOf ++ (entriesOf text ++ rest.flatMap entriesOf) := by
    rw [← htext, hsecond.lines, List.flatMap_append, List.flatMap_cons]
  have hlast : ∀ key, key ≠ "PEER_NAMES" →
      last key (texts.flatMap entriesOf ++ (shellEntries [l] ++ rest.flatMap entriesOf)) =
        last key ((editLines "PEER_IPS" ips (lines.map Line.render)).flatMap entriesOf) := by
    intro key hkey
    have htextLast : last key (shellEntries [l]) = last key (entriesOf text) := by
      rcases hl with ⟨rfl, hset⟩ | ⟨-, -, rfl, -⟩
      · refine Eq.symm (last_eq_none.mpr fun e he => ?_)
        rw [((hmem text (List.mem_append_right _ List.mem_cons_self)).tagged e he).mpr hset]
        exact hkey.symm
      · rw [entriesOf_render]
    rw [hflat, last_append, last_append, last_append, last_append, htextLast]
  have hunnamed : ∀ other, other ∈ texts ∨ other ∈ rest → ∀ e ∈ entriesOf other, e.1 ≠ "PEER_NAMES" := by
    intro other hother e he hkey
    have hset : sets "PEER_NAMES" other = false := hother.elim (hsecond.before other) (halone other)
    rw [((hmem other ?_).tagged e he).mp hkey] at hset
    · cases hset
    · exact hother.elim (List.mem_append_left _) fun h => List.mem_append_right _ (List.mem_cons_of_mem _ h)
  refine ⟨l, texts.flatMap entriesOf, rest.flatMap entriesOf, fun names hn => ?_, ?_, fun key hkey hkey' => ?_, ?_,
    ⟨?_, hfree⟩, own_second hlines hcut hown (htext ▸ hsecond) hfree hl, fun hnot => ?_⟩
  · rw [source_upsertKv isName_peerNames hn, sourceLines_edit hsecond, hwritten,
      sourceLines_tagged fun other hother => hmem other (List.mem_append_left _ hother),
      sourceLines_tagged fun other hother => hmem other (List.mem_append_right _ (List.mem_cons_of_mem _ hother)),
      Option.bind_some]
    simp only [Option.map_some]
    exact Option.map_eq_bind.symm
  · rw [hlast _ (by decide), hedited]
  · rw [hlast key hkey', hothers key hkey]
  · intro e he
    rw [List.mem_append, List.mem_flatMap, List.mem_flatMap] at he
    rcases he with ⟨other, hother, he⟩ | ⟨other, hother, he⟩
    · exact hunnamed other (.inl hother) e he
    · exact hunnamed other (.inr hother) e he
  · rcases hl with ⟨rfl, -⟩ | ⟨hset, -, rfl, -⟩
    · rfl
    · rwa [sets_render isName_peerNames] at hset
  · rcases hl with ⟨rfl, -⟩ | ⟨-, rfl, -, rfl⟩
    · exact absurd (.inr ⟨_, _, rfl⟩) hnot
    · refine ⟨rfl, ?_⟩
      cases hbehind : behind.getLast? with
      | none =>
          rw [hbehind] at hnot
          exact absurd (.inr ⟨_, _, rfl⟩) hnot
      | some l => rw [hlines, List.getLast?_append_cons, List.getLast?_cons, hbehind]; rfl

end Scene

/-! ## What a shell that finds the role has read -/

section Necessary

variable {host : Host} {config : DaemonConfig} {ordered : List (String × String)} {vars : Vars}
  {lines before behind : List Line} {line : Line}

theorem notMem_join {parts : List String} {c : Char} (hc : c ≠ ',') (h : ∀ s ∈ parts, c ∉ s.toList) :
    c ∉ (join "," parts).toList := by
  intro hmem
  rcases mem_toList_join hmem with hmem | ⟨s, hs, hmem⟩
  · exact hc (List.mem_singleton.mp hmem)
  · exact h s hs hmem

theorem notMem_positional {size : ℕ} {c : Char} (hc : IssuedEnv.isPlain c = false) :
    ∀ s ∈ positional size, c ∉ s.toList := by
  intro s hs hmem
  rw [IssuedEnv.plain_of_word (plain_positional size s hs).1 c hmem] at hc
  cases hc

theorem Found.newline (h : Found host config ordered vars) :
    '\n' ∉ (newPeerIps ordered).toList ∧ '\n' ∉ (newPeerNames ordered).toList := by
  obtain ⟨v, -, hread⟩ := h.ips
  refine ⟨notMem_join (by decide) fun s hs hmem => ?_, notMem_join (by decide) fun s hs hmem => ?_⟩
  · rw [← hread] at hs
    exact (mem_readArray hs _ hmem).2 rfl
  · rcases h.names with ⟨w, -, -, hread'⟩ | ⟨-, hpositional⟩
    · rw [← hread'] at hs
      exact (mem_readArray hs _ hmem).2 rfl
    · rw [hpositional] at hs
      exact notMem_positional (by decide) s hs hmem

theorem Found.ips_long (h : Found host config ordered vars) :
    ∃ v, ("PEER_IPS", v) ∈ vars ∧ (newPeerIps ordered).toList.length ≤ v.toList.length := by
  obtain ⟨v, hv, hread⟩ := h.ips
  refine ⟨v, mem_of_last hv, ?_⟩
  rw [newPeerIps, ← hread]
  exact join_readArray_length v

theorem Found.names_long (h : Found host config ordered vars) : Literal (newPeerNames ordered) ∨
    ∃ v, ("PEER_NAMES", v) ∈ vars ∧ (newPeerNames ordered).toList.length ≤ v.toList.length := by
  rcases h.names with ⟨v, hv, -, hread⟩ | ⟨-, hpositional⟩
  · refine .inr ⟨v, mem_of_last hv, ?_⟩
    rw [newPeerNames, ← hread]
    exact join_readArray_length v
  · left
    rw [newPeerNames, hpositional]
    exact literal_positional _

/-- A carriage return among the ips is a line break when the names are written, and no line
has it then but that of the names. -/
theorem Found.unbroken (h : Found host config ordered vars) (hpinned : Pinned config lines)
    (hsource : source (upsertKv "PEER_NAMES" (newPeerNames ordered)
      (upsertKv "PEER_IPS" (newPeerIps ordered) (fileOf lines))) = some vars) :
    '\r' ∉ (newPeerIps ordered).toList := by
  intro hreturn
  have hne : lines ≠ [] := by
    rintro rfl
    exact absurd hpinned.nodeName (by simp [shellEntries])
  obtain ⟨before, line, behind, hlines, hcut⟩ := exists_spot "PEER_IPS" hne
  obtain ⟨texts, text, rest, hsecond⟩ := exists_cut "PEER_NAMES"
    (textLines_ne_nil (upsertKv "PEER_IPS" (newPeerIps ordered) (fileOf lines)))
  obtain ⟨l, hwritten, hnames, -⟩ := second_line hpinned.unbroken hpinned.ips hlines hcut hsecond
  obtain ⟨hipsLine, hnamesLine⟩ := h.newline
  have hmem : ∀ other ∈ texts ++ text :: rest,
      '\r' ∉ other.toList := fun other hother => notMem_textLines_return (hsecond.lines ▸ hother)
  have hfrom : ∀ e ∈ vars, '\r' ∈ e.2.toList → '\r' ∈ (newPeerNames ordered).toList ∧
      ∃ es, sourceLine (written "PEER_NAMES" (newPeerNames ordered) l.render).toList = some es ∧ e ∈ es := by
    intro e he hc
    rw [source_upsertKv isName_peerNames hnamesLine] at hsource
    obtain ⟨chars, hchars, es, hes, he'⟩ := mem_sourceLines hsource he
    obtain ⟨other, hother, rfl⟩ := List.mem_map.mp hchars
    have hline : '\r' ∈ other.toList := (sourceLine_chars hes e he' _ hc).resolve_right (by decide)
    rw [editLines_cut hsecond, List.mem_append, List.mem_cons] at hother
    rcases hother with hother | rfl | hother
    · exact absurd hline (hmem other (List.mem_append_left _ hother))
    · refine ⟨?_, es, by rw [← hwritten, hes], he'⟩
      by_contra hnone
      exact notMem_written (hmem text (List.mem_append_right _ List.mem_cons_self))
        (notMem_assignment isName_peerNames (by decide) (by decide) hnone) hline
    · split_ifs at hother
      · rw [List.mem_singleton.mp hother] at hline
        cases hline
      · exact absurd hline (hmem other (List.mem_append_right _ (List.mem_cons_of_mem _ hother)))
  have hfield : ∀ {v : String} {fields : List String}, readArray v = fields →
      '\r' ∈ (join "," fields).toList → '\r' ∈ v.toList := by
    intro v fields hread hc
    by_contra hnone
    refine notMem_join (by decide) (fun s hs hmem => ?_) hc
    rw [← hread] at hs
    exact hnone (mem_readArray hs _ hmem).1
  obtain ⟨v, hv, hread⟩ := h.ips
  obtain ⟨hnamesReturn, es, hes, hips⟩ := hfrom _ (mem_of_last hv) (hfield hread hreturn)
  have hliteral : Literal (newPeerNames ordered) := by
    rcases h.names with ⟨w, hw, -, hread'⟩ | ⟨-, hpositional⟩
    · obtain ⟨-, es', hes', hmem'⟩ := hfrom _ (mem_of_last hw) (hfield hread' hnamesReturn)
      have hlong : (newPeerNames ordered).toList.length ≤ w.toList.length := by
        rw [newPeerNames, ← hread']
        exact join_readArray_length w
      exact (eq_of_long isName_peerNames hnamesLine hes' hmem' (fun _ => rfl) (.inl hlong)).2.1
    · rw [newPeerNames, hpositional]
      exact literal_positional _
  obtain ⟨-, -, heq⟩ := eq_of_long isName_peerNames hnamesLine hes hips
    (fun hset => absurd hset (by rw [hnames]; exact Bool.false_ne_true)) (.inr hliteral)
  exact absurd (Prod.mk.inj heq).1 (by decide)

/-- What a shell reads for the two keys was written by one of the edits. -/
theorem mem_synced {ips names : String} (hpinned : Pinned config lines) (hne : lines ≠ [])
    (hips : '\n' ∉ ips.toList ∧ '\r' ∉ ips.toList) (hnames : '\n' ∉ names.toList)
    (hsource : source (upsertKv "PEER_NAMES" names (upsertKv "PEER_IPS" ips (fileOf lines))) = some vars) :
    ∃ line l : Line, (HasLine "PEER_IPS" lines ↔ Own "PEER_IPS" line) ∧ l.names "PEER_IPS" = false ∧
      ∀ e ∈ vars, e.1 = "PEER_IPS" ∨ e.1 = "PEER_NAMES" →
        (line.names "PEER_NAMES" = false ∧
          ∃ es, sourceLine (written "PEER_IPS" ips line.render).toList = some es ∧ e ∈ es) ∨
        ∃ es, sourceLine (written "PEER_NAMES" names l.render).toList = some es ∧ e ∈ es := by
  obtain ⟨before, line, behind, hlines, hcut⟩ := exists_spot "PEER_IPS" hne
  obtain ⟨texts, text, rest, hsecond⟩ := exists_cut "PEER_NAMES"
    (textLines_ne_nil (upsertKv "PEER_IPS" ips (fileOf lines)))
  obtain ⟨l, hwritten, hfree, -⟩ := second_line hpinned.unbroken hpinned.ips hlines hcut hsecond
  have hedited : textLines (upsertKv "PEER_IPS" ips (fileOf lines)) =
      editLines "PEER_IPS" ips (lines.map Line.render) := by
    rw [textLines_upsertKv isName_peerIps hips.1 hips.2, textLines_fileOf hne hpinned.unbroken]
  rw [source_upsertKv isName_peerNames hnames, hedited] at hsource
  rw [hedited] at hsecond
  refine ⟨line, l, hasLine_iff_own isName_peerIps hlines hcut, hfree, fun e he hkey => ?_⟩
  obtain ⟨chars, hchars, es, hes, he⟩ := mem_sourceLines hsource he
  obtain ⟨other, hother, rfl⟩ := List.mem_map.mp hchars
  have hcount : (editLines "PEER_IPS" ips (lines.map Line.render)).countP (sets "PEER_NAMES") ≤ 1 :=
    countP_edited hcut (by rw [countP_render isName_peerNames]; exact hpinned.names)
  have hempty : ∀ es, sourceLine "".toList = some es → e ∉ es := by
    intro es hes
    cases hes
    exact List.not_mem_nil
  rcases mem_editLines hsecond hcount hother with rfl | rfl | ⟨hother, hset⟩
  · exact .inr ⟨es, by rw [← hwritten, hes], he⟩
  · exact absurd he (hempty es hes)
  · rcases mem_editLines hcut (by rw [countP_render isName_peerIps]; exact hpinned.ips) hother with
      rfl | rfl | ⟨hother, hset'⟩
    · refine .inl ⟨?_, es, hes, he⟩
      rw [Bool.eq_false_iff]
      intro hnamed
      have hset' : sets "PEER_IPS" line.render = false := by
        obtain ⟨s, rfl, hs⟩ := names_iff.mp hnamed
        rw [sets_render isName_peerIps, Line.names, decide_eq_false_iff_not, hs]
        decide
      rw [written, hset', if_neg Bool.false_ne_true, sets, startsWith] at hset
      rw [← sets_render isName_peerNames, sets, startsWith, List.isPrefixOf_iff_prefix] at hnamed
      rw [Bool.eq_false_iff, ne_eq, List.isPrefixOf_iff_prefix] at hset
      refine hset (hnamed.trans ?_)
      rw [String.toList_append]
      exact List.prefix_append _ _
    · exact absurd he (hempty es hes)
    · obtain ⟨x, -, rfl⟩ := List.mem_map.mp hother
      rw [sourceLine_render, Option.some.injEq] at hes
      rw [← hes] at he
      have hnamed := names_of_entry he
      rw [sets_render isName_peerIps] at hset'
      rw [sets_render isName_peerNames] at hset
      rcases hkey with hkey | hkey
      · rw [hkey, hset'] at hnamed
        cases hnamed
      · rw [hkey, hset] at hnamed
        cases hnamed

/-- The ips are read back from a line of their own: behind another text only a longer list of
names could give them, and that could only be read from a longer list of ips. -/
theorem Found.first_line (h : Found host config ordered vars) (hpinned : Pinned config lines) (hne : lines ≠ [])
    (hsource : source (upsertKv "PEER_NAMES" (newPeerNames ordered)
      (upsertKv "PEER_IPS" (newPeerIps ordered) (fileOf lines))) = some vars) :
    HasLine "PEER_IPS" lines ∧ Literal (newPeerIps ordered) := by
  obtain ⟨hn, hn'⟩ := h.newline
  obtain ⟨line, l, hline, hfree, hfrom⟩ := mem_synced hpinned hne ⟨hn, h.unbroken hpinned hsource⟩ hn' hsource
  obtain ⟨v, hv, hlong⟩ := h.ips_long
  have hfirst : ∀ {e : String × String} {es : List (String × String)},
      sourceLine (written "PEER_IPS" (newPeerIps ordered) line.render).toList = some es → e ∈ es →
      (line.names e.1 = true → e.1 = "PEER_IPS") → (newPeerIps ordered).toList.length ≤ e.2.toList.length →
      HasLine "PEER_IPS" lines ∧ Literal (newPeerIps ordered) ∧ e = ("PEER_IPS", newPeerIps ordered) := by
    intro e es hes he hother hlong
    obtain ⟨hown, hliteral, heq⟩ := eq_of_long isName_peerIps hn hes he hother (.inl hlong)
    exact ⟨hline.mpr hown, hliteral, heq⟩
  rcases hfrom _ hv (.inl rfl) with ⟨-, es, hes, he⟩ | ⟨es, hes, he⟩
  · obtain ⟨hown, hliteral, -⟩ := hfirst hes he (fun _ => rfl) hlong
    exact ⟨hown, hliteral⟩
  · exfalso
    have hsecond : ¬((newPeerNames ordered).toList.length ≤ v.toList.length ∨ Literal (newPeerNames ordered)) := by
      intro hlong'
      obtain ⟨-, -, heq⟩ := eq_of_long isName_peerNames hn' hes he
        (fun hset => by rw [hfree] at hset; cases hset) hlong'
      exact absurd (Prod.mk.inj heq).1 (by decide)
    rw [not_or, not_le] at hsecond
    obtain ⟨w, hw, hlong'⟩ := h.names_long.resolve_left hsecond.2
    rcases hfrom _ hw (.inr rfl) with ⟨hnames, es', hes', he'⟩ | ⟨es', hes', he'⟩
    · obtain ⟨-, -, heq⟩ := hfirst hes' he' (fun hset => by rw [hnames] at hset; cases hset) (by simp only; omega)
      exact absurd (Prod.mk.inj heq).1 (by decide)
    · exact hsecond.2 (eq_of_long isName_peerNames hn' hes' he' (fun _ => rfl) (.inl hlong')).2.1

end Necessary

/-! ## When the role is found -/

section Readable

variable {host : Host} {config : DaemonConfig} {ordered : List (String × String)} {lines : List Line} {l : Line}
  {ips : String} {eb et ws : List (String × String)}

theorem Scene.own_empty (h : Scene lines ips l eb et) (hown : Own "PEER_NAMES" l) : shellEntries [l] = [] := by
  refine List.eq_nil_iff_forall_not_mem.mpr fun e he => ?_
  have hnames := names_of_entry he
  rw [own_entries hown e he, h.free.1] at hnames
  cases hnames

/-- A variable that the second line does not set has the value from the file. -/
theorem Scene.last_kept (h : Scene lines ips l eb et) {key : String} (hkey : key ≠ "PEER_IPS")
    (hkey' : key ≠ "PEER_NAMES") (hline : l.names key = false) (hws : ∀ e ∈ ws, e.1 ≠ key) :
    last key (eb ++ (ws ++ et)) = last key (shellEntries lines) := by
  have hnone : last key (shellEntries [l]) = none := by
    refine last_eq_none.mpr fun e he hentry => ?_
    have hnames := names_of_entry he
    rw [hentry, hline] at hnames
    cases hnames
  rw [← h.others key hkey hkey', last_append, last_append, last_append, last_append, hnone, last_eq_none.mpr hws]

theorem Scene.last_ips (h : Scene lines ips l eb et) (hws : ∀ e ∈ ws, e.1 ≠ "PEER_IPS") :
    last "PEER_IPS" (eb ++ (ws ++ et)) = some ips := by
  have hnone : last "PEER_IPS" (shellEntries [l]) = none := by
    refine last_eq_none.mpr fun e he hentry => ?_
    have hnames := names_of_entry he
    rw [hentry, h.free.2] at hnames
    cases hnames
  rw [← h.ips, last_append, last_append, last_append, last_append, hnone, last_eq_none.mpr hws]

theorem Scene.last_names (h : Scene lines ips l eb et) :
    last "PEER_NAMES" (eb ++ (ws ++ et)) = last "PEER_NAMES" ws := by
  have hbefore := last_eq_none.mpr fun e he => h.names e (List.mem_append_left et he)
  have hbehind := last_eq_none.mpr fun e he => h.names e (List.mem_append_right eb he)
  rw [last_append, last_append, hbefore, hbehind, Option.none_or, Option.or_none]

/-- The words of the second line when it is joined to another text. -/
theorem joined_words {names : String} (hliteral : Literal names) (hown : ¬Own "PEER_NAMES" l)
    (hws : sourceLine (written "PEER_NAMES" names l.render).toList = some ws) :
    ws = (shellEntries [l]).map (fun e => (e.1, e.2 ++ assignment "PEER_NAMES" names)) ∧
      ∀ key, l.names key = false → ∀ e ∈ ws, e.1 ≠ key := by
  obtain rfl := (sourceLine_joined isName_peerNames hown hws).2 hliteral
  refine ⟨rfl, fun key hkey e he hentry => ?_⟩
  obtain ⟨e', he', rfl⟩ := List.mem_map.mp he
  have hnames := names_of_entry he'
  rw [show e'.1 = key from hentry, hkey] at hnames
  cases hnames

theorem readArray_names (hmembers : Members config ordered) (hn : '\n' ∉ (newPeerNames ordered).toList) :
    readArray (newPeerNames ordered) = ordered.map Prod.fst ↔ (ordered.map Prod.fst).getLast? ≠ some "" := by
  refine readArray_join_iff (by simpa using List.ne_nil_of_mem hmembers.self) fun s hs => ?_
  obtain ⟨p, hp, rfl⟩ := List.mem_map.mp hs
  exact ⟨(hmembers.commas p hp).1, fun hmem => hn (mem_join_of_mem hs hmem)⟩

/-- The names that were written are read, or made up. -/
theorem peerNames_written (hmembers : Members config ordered) (hliteral : Literal (newPeerNames ordered))
    (hlast : (ordered.map Prod.fst).getLast? ≠ some "") :
    peerNames ordered.length (newPeerNames ordered) = .ok (ordered.map Prod.fst) := by
  have hread := (readArray_names hmembers hliteral.oneLine).mpr hlast
  have hne : newPeerNames ordered ≠ "" := by
    intro hempty
    rw [hempty, show readArray "" = [] by decide, eq_comm, List.map_eq_nil_iff] at hread
    exact List.ne_nil_of_mem hmembers.self hread
  rw [peerNames, if_pos hne]
  dsimp only
  rw [hread, List.length_map, if_neg (not_not.mpr rfl)]

theorem Readable.reads (h : Readable host config ordered lines) (hpinned : Pinned config lines) (hne : lines ≠ [])
    (hmembers : Members config ordered) : Reads host config ordered
      (upsertKv "PEER_NAMES" (newPeerNames ordered) (upsertKv "PEER_IPS" (newPeerIps ordered) (fileOf lines))) := by
  obtain ⟨l, eb, et, hscene⟩ := exists_scene hpinned.unbroken hne hpinned.ips hpinned.names h.ips h.unbroken h.line
  by_cases hapart : NamesApart lines
  · obtain ⟨hliteral, hlast⟩ := h.apart hapart
    have hown := hscene.own.mpr hapart
    have hsource := hscene.source _ hliteral.oneLine
    rw [sourceLine_own isName_peerNames hown, sourceLine_assigned isName_peerNames hliteral, Option.map_some] at hsource
    have hkept : ∀ key, key ≠ "PEER_IPS" → key ≠ "PEER_NAMES" →
        last key (eb ++ ([("PEER_NAMES", newPeerNames ordered)] ++ et)) = last key (shellEntries lines) := by
      intro key hkey hkey'
      rw [← hscene.others key hkey hkey', hscene.own_empty hown, last_append, last_append, last_append, last_append,
        last_singleton, if_neg hkey'.symm]
      rfl
    refine reads_of_values hmembers hpinned.named hpinned.addressed hsource ?_ h.ips.oneLine ?_ ?_ fun _ => ⟨?_, ?_⟩
    · refine hscene.last_ips fun e he => ?_
      rw [List.mem_singleton.mp he]
      exact (by decide : "PEER_NAMES" ≠ "PEER_IPS")
    · rw [value, hscene.last_names, last_singleton, if_pos rfl]
      exact peerNames_written hmembers hliteral hlast
    · rw [value, hkept _ (by decide) (by decide)]
      exact h.picks
    · rw [value, hkept _ (by decide) (by decide), hpinned.nodeName, Option.getD_some]
    · rw [value, hkept _ (by decide) (by decide), hpinned.localIp, Option.getD_some]
  · have hjoined := h.joined hapart
    have hown : ¬Own "PEER_NAMES" l := fun hown => hapart (hscene.own.mp hown)
    obtain ⟨rfl, hlast⟩ := hscene.behind hown
    have hliteral : Literal (newPeerNames ordered) := by
      rw [newPeerNames, hjoined.positional]
      exact literal_positional _
    obtain ⟨ws, hws⟩ := hjoined.followed l hlast
    have hwritten : written "PEER_NAMES" (newPeerNames ordered) l.render =
        l.render ++ assignment "PEER_NAMES" (newPeerNames ordered) := by
      rw [written, sets_render isName_peerNames, hscene.free.1, if_neg Bool.false_ne_true]
    rw [← hwritten] at hws
    have hother := (joined_words hliteral hown hws).2
    have hsource := hscene.source _ hliteral.oneLine
    rw [hws, Option.map_some] at hsource
    have hspared : l.names "FORCE_NODE_INDEX" = false ∧ (value (shellEntries lines) "FORCE_NODE_INDEX" = "" →
        l.names "NODE_NAME" = false ∧ l.names "LOCAL_IP" = false) := by
      cases l with
      | setting s =>
          have hs := hjoined.spared s hlast
          exact ⟨decide_eq_false hs.1, fun hindex => ⟨decide_eq_false (hs.2 hindex).1, decide_eq_false (hs.2 hindex).2⟩⟩
      | _ => exact ⟨rfl, fun _ => ⟨rfl, rfl⟩⟩
    have hindex : value (eb ++ (ws ++ [])) "FORCE_NODE_INDEX" = value (shellEntries lines) "FORCE_NODE_INDEX" := by
      rw [value, hscene.last_kept (by decide) (by decide) hspared.1 (hother _ hspared.1), value]
    refine reads_of_values hmembers hpinned.named hpinned.addressed hsource ?_ h.ips.oneLine ?_ ?_ fun hempty => ⟨?_, ?_⟩
    · exact hscene.last_ips (hother _ hscene.free.2)
    · rw [value, hscene.last_names, last_eq_none.mpr (hother _ hscene.free.1), hjoined.positional]
      rfl
    · rw [hindex]
      exact h.picks
    · rw [hindex] at hempty
      have hname := (hspared.2 hempty).1
      rw [value, hscene.last_kept (by decide) (by decide) hname (hother _ hname), hpinned.nodeName, Option.getD_some]
    · rw [hindex] at hempty
      have hip := (hspared.2 hempty).2
      rw [value, hscene.last_kept (by decide) (by decide) hip (hother _ hip), hpinned.localIp, Option.getD_some]

/-- What the shell must have read when the names were written on their own line. -/
theorem Found.apart (h : Found host config ordered (eb ++ (ws ++ et))) (hscene : Scene lines ips l eb et)
    (hmembers : Members config ordered) (hown : Own "PEER_NAMES" l) (hn : '\n' ∉ (newPeerNames ordered).toList)
    (hws : sourceLine (written "PEER_NAMES" (newPeerNames ordered) l.render).toList = some ws) :
    (Literal (newPeerNames ordered) ∧ (ordered.map Prod.fst).getLast? ≠ some "") ∧
      PicksSelf host config ordered (value (shellEntries lines) "FORCE_NODE_INDEX") := by
  have hliteral : Literal (newPeerNames ordered) := by
    refine h.names_long.elim id fun hlong => ?_
    obtain ⟨w, hw, hlong⟩ := hlong
    rw [List.mem_append, List.mem_append] at hw
    rcases hw with hw | hw | hw
    · exact absurd rfl (hscene.names _ (List.mem_append_left _ hw))
    · exact (eq_of_long isName_peerNames hn hws hw (fun _ => rfl) (.inl hlong)).2.1
    · exact absurd rfl (hscene.names _ (List.mem_append_right _ hw))
  rw [sourceLine_own isName_peerNames hown, sourceLine_assigned isName_peerNames hliteral, Option.some.injEq] at hws
  subst hws
  refine ⟨⟨hliteral, ?_⟩, ?_⟩
  · rcases h.names with ⟨v, hv, -, hread⟩ | ⟨-, hpositional⟩
    · rw [hscene.last_names, last_singleton, if_pos rfl, Option.some.injEq] at hv
      rw [← hv] at hread
      exact (readArray_names hmembers hn).mp hread
    · intro hlast
      rw [hpositional] at hlast
      exact (plain_positional _ _ (List.mem_of_getLast? hlast)).2 rfl
  · have hpicks := h.picks
    rwa [value, hscene.last_kept (by decide) (by decide), ← value] at hpicks
    · have hnone : (shellEntries [l]) = [] := hscene.own_empty hown
      rw [Bool.eq_false_iff]
      intro hnames
      obtain ⟨s, rfl, -⟩ := names_iff.mp hnames
      cases hnone
    · intro e he
      rw [List.mem_singleton.mp he]
      exact (by decide : "PEER_NAMES" ≠ "FORCE_NODE_INDEX")

theorem append_assignment_ne_self {key value : String} (s : String) : s ++ assignment key value ≠ s := by
  intro he
  have hlength := congrArg (fun t : String => t.toList.length) he
  simp [toList_assignment] at hlength

theorem append_assignment_ne_empty {key value : String} (s : String) : s ++ assignment key value ≠ "" := by
  intro he
  have hlength := congrArg (fun t : String => t.toList.length) he
  simp [toList_assignment] at hlength

/-- What it must have read when the names were lost in the last line. -/
theorem Found.madeUp (h : Found host config ordered (eb ++ (ws ++ et))) (hscene : Scene lines ips l eb et)
    (hpinned : Pinned config lines) (hown : ¬Own "PEER_NAMES" l) (hn : '\n' ∉ (newPeerNames ordered).toList)
    (hws : sourceLine (written "PEER_NAMES" (newPeerNames ordered) l.render).toList = some ws) :
    MadeUp ordered lines ∧ PicksSelf host config ordered (value (shellEntries lines) "FORCE_NODE_INDEX") := by
  obtain ⟨rfl, hlast⟩ := hscene.behind hown
  have hpositional : ordered.map Prod.fst = positional ordered.length := by
    rcases h.names with ⟨v, hv, -, hread⟩ | ⟨-, hpositional⟩
    · rw [hscene.last_names] at hv
      have hlong : (newPeerNames ordered).toList.length ≤ v.toList.length := by
        rw [newPeerNames, ← hread]
        exact join_readArray_length v
      exact absurd (eq_of_long isName_peerNames hn hws (mem_of_last hv) (fun _ => rfl) (.inl hlong)).1 hown
    · exact hpositional
  have hliteral : Literal (newPeerNames ordered) := by
    rw [newPeerNames, hpositional]
    exact literal_positional _
  obtain ⟨rfl, hother⟩ := joined_words hliteral hown hws
  have hwritten : written "PEER_NAMES" (newPeerNames ordered) l.render =
      l.render ++ assignment "PEER_NAMES" (newPeerNames ordered) := by
    rw [written, sets_render isName_peerNames, hscene.free.1, if_neg Bool.false_ne_true]
  -- the value of the setting that the names are joined to
  have hjoined : ∀ s, l = .setting s → value (eb ++
      ((shellEntries [l]).map (fun e => (e.1, e.2 ++ assignment "PEER_NAMES" (newPeerNames ordered))) ++ [])) s.name =
        s.text ++ assignment "PEER_NAMES" (newPeerNames ordered) := by
    rintro s rfl
    simp [value, shellEntries, last_append]
  have hold : ∀ s, l = .setting s → last s.name (shellEntries lines) = some s.text := by
    rintro s rfl
    obtain ⟨init, rfl⟩ := List.getLast?_eq_some_iff.mp hlast
    rw [shellEntries_append, last_append]
    simp [shellEntries]
  have hindexFree : l.names "FORCE_NODE_INDEX" = false := by
    rw [Bool.eq_false_iff]
    intro hset
    obtain ⟨s, rfl, hs⟩ := names_iff.mp hset
    have hpicks := h.picks
    rw [← hs, hjoined s rfl] at hpicks
    rcases hpicks with hempty | ⟨i, -, -, hnumber, -⟩
    · exact append_assignment_ne_empty _ hempty
    · have hsign : '=' ∈ (s.text ++ assignment "PEER_NAMES" (newPeerNames ordered)).toList := by
        simp [toList_assignment]
      have hdigits : (toString (i + 1)).toList = Nat.toDigits 10 (i + 1) := by simp [toString, Nat.repr]
      rw [hnumber, hdigits] at hsign
      exact absurd (Nat.isDigit_of_mem_toDigits (by decide) (by decide) hsign) (by decide)
  have hindex := hscene.last_kept (by decide) (by decide) hindexFree (hother _ hindexFree)
  have hpicks := h.picks
  rw [value, hindex, ← value] at hpicks
  refine ⟨⟨hpositional, fun line hline => ?_, fun s hs => ?_⟩, hpicks⟩
  · obtain rfl := Option.some.inj (hlast.symm.trans hline)
    rw [← hwritten]
    exact ⟨_, hws⟩
  · have hl : l = .setting s := Option.some.inj (hlast.symm.trans hs)
    refine ⟨fun hname => ?_, fun hempty => ?_⟩
    · rw [hl, Line.names, decide_eq_false_iff_not] at hindexFree
      exact hindexFree hname
    · rw [value, ← hindex, ← value] at hempty
      have hself := h.pinned hempty
      have hnode : s.name ≠ "NODE_NAME" := by
        intro hname
        have hvalue := hjoined s hl
        have htext := hold s hl
        rw [hname] at hvalue htext
        rw [hpinned.nodeName, Option.some.injEq] at htext
        rw [hvalue] at hself
        exact append_assignment_ne_self _ ((hself (append_assignment_ne_empty _)).1.trans htext)
      refine ⟨hnode, fun hname => ?_⟩
      have hnodeFree : l.names "NODE_NAME" = false := by
        rw [hl, Line.names, decide_eq_false_iff_not]
        exact hnode
      have hvalue := hjoined s hl
      have htext := hold s hl
      rw [hname] at hvalue htext
      rw [hpinned.localIp, Option.some.injEq] at htext
      have hnode' := hscene.last_kept (by decide) (by decide) hnodeFree (hother _ hnodeFree)
      rw [value, hnode', hpinned.nodeName, Option.getD_some, hvalue] at hself
      exact append_assignment_ne_self _ (((hself hpinned.named).2 (append_assignment_ne_empty _)).trans htext)

/-- The file of a host that finds its role. -/
theorem readable_of_reads (hpinned : Pinned config lines) (hne : lines ≠ []) (hmembers : Members config ordered)
    (h : Reads host config ordered
      (upsertKv "PEER_NAMES" (newPeerNames ordered) (upsertKv "PEER_IPS" (newPeerIps ordered) (fileOf lines)))) :
    Readable host config ordered lines := by
  obtain ⟨vars, hsource, hfound⟩ := found_of_reads h
  obtain ⟨hline, hliteral⟩ := hfound.first_line hpinned hne hsource
  have hreturn := hfound.unbroken hpinned hsource
  have hn := hfound.newline.2
  obtain ⟨l, eb, et, hscene⟩ := exists_scene hpinned.unbroken hne hpinned.ips hpinned.names hliteral hreturn hline
  rw [hscene.source _ hn] at hsource
  obtain ⟨ws, hws, rfl⟩ := Option.map_eq_some_iff.mp hsource
  by_cases hown : Own "PEER_NAMES" l
  · obtain ⟨hapart, hpicks⟩ := hfound.apart hscene hmembers hown hn hws
    exact ⟨hliteral, hreturn, hline, hpicks, fun _ => hapart, fun hnot => absurd (hscene.own.mp hown) hnot⟩
  · obtain ⟨hmade, hpicks⟩ := hfound.madeUp hscene hpinned hown hn hws
    exact ⟨hliteral, hreturn, hline, hpicks, fun hapart => absurd (hscene.own.mpr hapart) hown, fun _ => hmade⟩

end Readable

/-! ## A removal -/

/-- The second of three nodes, when the first one is gone. -/
def secondNode : DaemonConfig := ⟨"node-2", "10.0.0.2", "token", 2380, 19500⟩

def survivors : Mirror :=
  ⟨[("node-2", .obj [("ip", .str "10.0.0.2")]), ("node-3", .obj [("ip", .str "10.0.0.3")])], by decide⟩

def bareLine (name text : String) (hname : isName name.toList = true) (h : literalFrom true text.toList = true)
    (hline : '\n' ∉ text.toList) (hnull : '\x00' ∉ text.toList) : Line :=
  .setting ⟨name, .bare, text, hname, h, hline, hnull⟩

theorem secondName_unbroken : '\n' ∉ "node-2".toList := by decide

/-- A file without a line for the names, and without a newline at its end. -/
def oldLines : List Line :=
  [bareLine "PEER_IPS" "10.0.0.1,10.0.0.2,10.0.0.3" (by decide) (by decide) (by decide) (by decide),
    bareLine "NODE_NAME" "node-2" (by decide) (by decide) secondName_unbroken (by decide),
    bareLine "LOCAL_IP" "10.0.0.2" (by decide) (by decide) (by decide) (by decide)]

/-- A shell that sees no ip of its own. -/
def quietHost : Host := ⟨"", fun _ => false, fun _ => none⟩

theorem pinned_oldLines : Pinned secondNode oldLines :=
  ⟨by decide +kernel, by decide, by decide, by decide, by decide, by decide, by decide⟩

theorem survivors_commas {name ip : String} {info : Json} (hinfo : survivors.get name = some info)
    (hip : usedIp info = some ip) : ',' ∉ name.toList ∧ ',' ∉ ip.toList := by
  have hmem : (name, info) ∈ survivors.entries := OrderedMap.mem_entries.mpr hinfo
  rw [survivors, List.mem_cons, List.mem_singleton] at hmem
  rcases hmem with hmem | hmem
  · cases hmem
    cases hip
    decide
  · cases hmem
    cases hip
    decide

theorem survivors_self : ∃ info, survivors.get secondNode.nodeName = some info ∧
    usedIp info = some secondNode.localIp := ⟨_, rfl, rfl⟩

/-! ## The mirror and the file -/

section Mirror

variable {config : DaemonConfig} {peers : Mirror} {lines : List Line}

theorem members_of_start {ordered : List (String × String)} (h : syncStart config peers = .peerIps ordered)
    (haddressed : config.localIp ≠ "")
    (hcommas : ∀ name info ip, peers.get name = some info → usedIp info = some ip →
      ',' ∉ name.toList ∧ ',' ∉ ip.toList)
    (hself : (∃ name info, peers.get name = some info ∧ usedIp info = some config.localIp) →
      ∃ info, peers.get config.nodeName = some info ∧ usedIp info = some config.localIp) :
    Members config ordered := by
  obtain ⟨hlisted, hips, hguard⟩ := listed_of_start h
  refine ⟨?_, ?_, hips, fun p hp => ?_⟩
  · rw [hlisted.mem]
    obtain ⟨p, hp, hip⟩ := List.mem_map.mp (hguard haddressed)
    obtain ⟨info, hinfo, hused⟩ := (hlisted.mem p.1 p.2).mp hp
    exact hself ⟨p.1, info, hinfo, hip ▸ hused⟩
  · exact List.pairwise_map.mpr (hlisted.sorted.imp fun hbefore => hbefore.2)
  · obtain ⟨info, hinfo, hused⟩ := (hlisted.mem p.1 p.2).mp hp
    exact hcommas p.1 info p.2 hinfo hused

/-- A shell finds the role that the mirror gives, if and only if the two lists can be read
from the lines that the sync writes them on. -/
theorem follows_iff (host : Host) (hpinned : Pinned config lines)
    (hcommas : ∀ name info ip, peers.get name = some info → usedIp info = some ip →
      ',' ∉ name.toList ∧ ',' ∉ ip.toList)
    (hself : (∃ name info, peers.get name = some info ∧ usedIp info = some config.localIp) →
      ∃ info, peers.get config.nodeName = some info ∧ usedIp info = some config.localIp) :
    Follows host config peers (fileOf lines) ↔
      ∀ ordered, syncStart config peers = .peerIps ordered → Readable host config ordered lines := by
  have hne : lines ≠ [] := by
    rintro rfl
    exact absurd hpinned.nodeName (by simp [shellEntries])
  have hsync : ∀ {ordered}, syncStart config peers = .peerIps ordered →
      syncClusterEnv config peers (fileOf lines) =
        upsertKv "PEER_NAMES" (newPeerNames ordered) (upsertKv "PEER_IPS" (newPeerIps ordered) (fileOf lines)) := by
    intro ordered hstart
    rw [syncClusterEnv, hstart]
  constructor
  · intro h ordered hstart
    have hreads := (h.written ordered hstart).2
    rw [hsync hstart] at hreads
    exact readable_of_reads hpinned hne (members_of_start hstart hpinned.addressed hcommas hself) hreads
  · intro h
    refine ⟨fun ordered hstart => ⟨(listed_of_start hstart).1, ?_⟩, fun hnone => ?_⟩
    · rw [hsync hstart]
      exact (h ordered hstart).reads hpinned hne (members_of_start hstart hpinned.addressed hcommas hself)
    · rw [syncClusterEnv]
      split
      · next ordered hstart => exact absurd hstart (hnone ordered)
      · rfl

theorem readable_survivors {ordered : List (String × String)}
    (h : syncStart secondNode survivors = .peerIps ordered) :
    Readable quietHost secondNode ordered (oldLines ++ [noLine]) := by
  have hstart : syncStart secondNode survivors = .peerIps [("node-2", "10.0.0.2"), ("node-3", "10.0.0.3")] := by
    decide +kernel
  rw [hstart] at h
  cases h
  have hends : ∀ key, HasLine key (oldLines ++ [noLine]) := fun key => .inr fun line hline => by
    cases hline
    exact ⟨_, _, rfl⟩
  exact ⟨⟨by decide, by decide, by decide⟩, by decide, hends _, .inl (by decide),
    fun _ => ⟨⟨by decide, by decide, by decide⟩, by decide⟩, fun hjoined => absurd (.inl (hends _)) hjoined⟩

theorem follows_iff_survivors : Follows quietHost secondNode survivors (fileOf (oldLines ++ [noLine])) :=
  (follows_iff quietHost
    ⟨by decide +kernel, by decide, by decide, by decide, by decide, by decide, by decide⟩
    (fun _ _ _ => survivors_commas) fun _ => survivors_self).mpr fun _ => readable_survivors

/-- Behind the last line the names are lost, and the second node takes its old number. -/
theorem lost_names_renumber : ∃ (host : Host) (config : DaemonConfig) (peers : Mirror) (lines : List Line),
    Pinned config lines ∧
      (∀ name info ip, peers.get name = some info → usedIp info = some ip → ',' ∉ name.toList ∧ ',' ∉ ip.toList) ∧
      (∃ info, peers.get config.nodeName = some info ∧ usedIp info = some config.localIp) ∧
      ¬Follows host config peers (fileOf lines) := by
  refine ⟨quietHost, secondNode, survivors, oldLines, pinned_oldLines, fun _ _ _ => survivors_commas, survivors_self,
    fun h => ?_⟩
  have hstart : syncStart secondNode survivors = .peerIps [("node-2", "10.0.0.2"), ("node-3", "10.0.0.3")] := by
    decide +kernel
  have hreads := (h.written _ hstart).2
  rw [syncClusterEnv, hstart] at hreads
  have hreadable := readable_of_reads pinned_oldLines (List.cons_ne_nil _ _)
    (members_of_start hstart (by decide) (fun _ _ _ => survivors_commas) fun _ => survivors_self) hreads
  have hjoined : ¬NamesApart oldLines := by
    rintro ((⟨line, hline, hnames⟩ | hblank) | hips)
    · have hnone : oldLines.any (Line.names "PEER_NAMES") = false := by decide
      exact List.any_eq_false.mp hnone line hline hnames
    · obtain ⟨spaces, hspaces, hline⟩ := hblank _ rfl
      cases hline
    · exact absurd (hips _ rfl) (by decide)
  exact absurd (hreadable.joined hjoined).positional (by decide)

end Mirror

end MilvusOnprem.SyncedRole
