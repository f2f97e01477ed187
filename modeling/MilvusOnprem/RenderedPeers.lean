import MilvusOnprem.WrittenEnv

/-!
# The lists of peers in the rendered files

`_render_compute_derived` spells the peers in four ways: for the flag of etcd, for two lists
of endpoints of Milvus and for the upstream of nginx. What is read from each of them on a host
are the peers of the mirror that the host's daemon has synced, with the ports of the host.
-/
namespace MilvusOnprem.RenderedPeers

open PythonText MilvusOnprem.Topology TopologyWatcher Joining OrderedPeers EnvText EnvFormat EnvStore
open ShellSource Assignments
open RoleDetect SyncedRole
open EnvSync (syncStart newPeerIps newPeerNames)
open IssuedEnv (isPlain isWord plain_join)
open PulsarDeploys (Vars value withDefault)
open SharedSettings (Unbroken)

/-! ## Rendering -/

/-- A variable after `_env_apply_defaults`. -/
def setting (vars : Vars) (name dflt : String) : String := value (withDefault name dflt vars) name

/-- The string that a loop over the peers appends to. -/
def eachPeer (r : Role) (f : String → String → String) : String :=
  String.join ((List.range r.CLUSTER_SIZE).map fun i => f (r.PEER_NAMES.getD i "") (r.PEERS_ARR.getD i ""))

/-- `${VAR%c}` for a single character. -/
def trimLast (c : Char) (s : String) : String :=
  if s.toList.getLast? = some c then String.ofList s.toList.dropLast else s

/-- What `_render_compute_derived` makes of the list of peers. -/
structure Derived where
  ETCD_INITIAL_CLUSTER : String
  MILVUS_ETCD_ENDPOINTS : String
  MILVUS_ETCD_ENDPOINTS_YAML : String
  NGINX_UPSTREAM_BLOCK : String
deriving DecidableEq

def renderComputeDerived (vars : Vars) (r : Role) : Derived where
  ETCD_INITIAL_CLUSTER := trimLast ',' (eachPeer r fun name ip =>
    name ++ "=http://" ++ ip ++ ":" ++ setting vars "ETCD_PEER_PORT" "2380" ++ ",")
  MILVUS_ETCD_ENDPOINTS := trimLast ',' (eachPeer r fun _ ip =>
    ip ++ ":" ++ setting vars "ETCD_CLIENT_PORT" "2379" ++ ",")
  MILVUS_ETCD_ENDPOINTS_YAML := trimLast '\n' (eachPeer r fun _ ip =>
    "    - " ++ ip ++ ":" ++ setting vars "ETCD_CLIENT_PORT" "2379" ++ "\n")
  NGINX_UPSTREAM_BLOCK := eachPeer r fun _ ip =>
    "    server " ++ ip ++ ":" ++ setting vars "MILVUS_PORT" "19530" ++
      " max_fails=" ++ setting vars "NGINX_UPSTREAM_MAX_FAILS" "3" ++
      " fail_timeout=" ++ setting vars "NGINX_UPSTREAM_FAIL_TIMEOUT_S" "30" ++ "s;\n"

/-- The settings of the lists. -/
def portKeys : List String :=
  ["ETCD_PEER_PORT", "ETCD_CLIENT_PORT", "MILVUS_PORT", "NGINX_UPSTREAM_MAX_FAILS", "NGINX_UPSTREAM_FAIL_TIMEOUT_S"]

/-! ## Reading -/

/-- A text before and behind its first `c`. -/
def cutAt (c : Char) (s : String) : String × String :=
  (String.ofList (s.toList.takeWhile fun d => d ≠ c), String.ofList ((s.toList.dropWhile fun d => d ≠ c).drop 1))

/-- The names and the urls of `--initial-cluster`. -/
def clusterMembers (flag : String) : List (String × String) := (split ',' flag).map (cutAt '=')

/-- The items of a list in YAML. -/
def yamlItems (text : String) : List String := (split '\n' text).map (removePrefix "    - ")

/-- The addresses of an upstream: each stands behind `server`, on a line that is ended. -/
def upstreamServers (block : String) : List String :=
  (split '\n' block).dropLast.map fun line => (cutAt ' ' (removePrefix "    server " line)).1

/-- The rendered lists are the peers with the ports of the host. -/
structure Shows (vars : Vars) (ordered : List (String × String)) (d : Derived) : Prop where
  members : clusterMembers d.ETCD_INITIAL_CLUSTER =
    ordered.map fun p => (p.1, "http://" ++ p.2 ++ ":" ++ setting vars "ETCD_PEER_PORT" "2380")
  endpoints : split ',' d.MILVUS_ETCD_ENDPOINTS =
    ordered.map fun p => p.2 ++ ":" ++ setting vars "ETCD_CLIENT_PORT" "2379"
  yaml : yamlItems d.MILVUS_ETCD_ENDPOINTS_YAML =
    ordered.map fun p => p.2 ++ ":" ++ setting vars "ETCD_CLIENT_PORT" "2379"
  upstream : upstreamServers d.NGINX_UPSTREAM_BLOCK =
    ordered.map fun p => p.2 ++ ":" ++ setting vars "MILVUS_PORT" "19530"

/-! ## Reading what was rendered -/

section Lists

variable {r : Role} {ordered : List (String × String)}

/-- A loop over the arrays is a loop over the peers. -/
theorem eachPeer_eq (hips : r.PEERS_ARR = ordered.map Prod.snd) (hnames : r.PEER_NAMES = ordered.map Prod.fst)
    (f : String → String → String) : eachPeer r f = String.join (ordered.map fun p => f p.1 p.2) := by
  rw [eachPeer, Role.CLUSTER_SIZE, hips, hnames, List.length_map]
  congr 1
  apply List.ext_getElem
  · simp
  · intro i hi hi'
    simp only [List.length_map, List.length_range] at hi
    simp [List.getD, hi]

/-- A loop that ends every part with a character writes one character more than a join. -/
theorem toList_ended (c : Char) {parts : List String} (hne : parts ≠ []) :
    (String.join (parts.map fun s => s ++ String.ofList [c])).toList =
      (join (String.ofList [c]) parts).toList ++ [c] := by
  induction parts with
  | nil => exact absurd rfl hne
  | cons s parts ih =>
      cases parts with
      | nil => simp [join]
      | cons t parts =>
          rw [List.map_cons, String.join_cons, String.toList_append, ih (List.cons_ne_nil _ _), join_cons_cons]
          simp

theorem trimLast_ended (c : Char) {parts : List String} (hne : parts ≠ []) :
    trimLast c (String.join (parts.map fun s => s ++ String.ofList [c])) = join (String.ofList [c]) parts := by
  rw [trimLast, toList_ended c hne, List.getLast?_concat, if_pos rfl, List.dropLast_concat, String.ofList_toList]

/-- The lines of a text that a loop has written. -/
theorem split_ended (c : Char) {parts : List String} (hparts : ∀ s ∈ parts, c ∉ s.toList) :
    split c (String.join (parts.map fun s => s ++ String.ofList [c])) = parts ++ [""] := by
  rw [← WrittenEnv.join_ended, split_join c (by simp)]
  intro s hs
  rcases List.mem_append.mp hs with hs | hs
  · exact hparts s hs
  · rw [List.mem_singleton.mp hs]
    simp

theorem cutAt_append {c : Char} {s : String} (h : c ∉ s.toList) (t : String) :
    cutAt c (s ++ (String.ofList [c] ++ t)) = (s, t) := by
  have hs : ∀ d ∈ s.toList, decide (d ≠ c) = true := by
    intro d hd
    rw [decide_eq_true_eq]
    rintro rfl
    exact h hd
  have hchars : (s ++ (String.ofList [c] ++ t)).toList = s.toList ++ c :: t.toList := by simp
  rw [cutAt, hchars, List.takeWhile_append_of_pos hs, List.dropWhile_append_of_pos hs,
    List.takeWhile_cons_of_neg (by simp), List.dropWhile_cons_of_neg (by simp)]
  simp

/-- A separator is in no word. -/
theorem notMem_word {c : Char} (hc : isNameChar c = false ∧ c ∉ ['.', '-', ':']) {s : String} (h : isWord s = true) :
    c ∉ s.toList := by
  intro hmem
  have hword := List.all_eq_true.mp h c hmem
  rw [hc.1, Bool.false_or, List.contains_iff_mem] at hword
  exact hc.2 hword

/-- The parts that a loop over the peers writes, with one character behind each of them. -/
theorem split_eachPeer (hips : r.PEERS_ARR = ordered.map Prod.snd) (hnames : r.PEER_NAMES = ordered.map Prod.fst)
    (hne : ordered ≠ []) (c : Char) (part : String → String → String)
    (hpart : ∀ p ∈ ordered, c ∉ (part p.1 p.2).toList) :
    split c (trimLast c (eachPeer r fun name ip => part name ip ++ String.ofList [c])) =
      ordered.map (fun p => part p.1 p.2) ∧
    split c (eachPeer r fun name ip => part name ip ++ String.ofList [c]) =
      ordered.map (fun p => part p.1 p.2) ++ [""] := by
  have hmap : (ordered.map fun p => part p.1 p.2 ++ String.ofList [c]) =
      (ordered.map fun p => part p.1 p.2).map fun s => s ++ String.ofList [c] := by
    rw [List.map_map]
    rfl
  have hparts : ∀ s ∈ ordered.map fun p => part p.1 p.2, c ∉ s.toList := by
    intro s hs
    obtain ⟨p, hp, rfl⟩ := List.mem_map.mp hs
    exact hpart p hp
  have hnonempty : (ordered.map fun p => part p.1 p.2) ≠ [] := fun h => hne (List.map_eq_nil_iff.mp h)
  rw [eachPeer_eq hips hnames, hmap, trimLast_ended c hnonempty]
  exact ⟨split_join c hnonempty hparts, split_ended c hparts⟩

/-- What is read back from the lists, if no field has a separator in it. -/
theorem shows_rendered (hips : r.PEERS_ARR = ordered.map Prod.snd) (hnames : r.PEER_NAMES = ordered.map Prod.fst)
    (hne : ordered ≠ []) (hpeers : ∀ p ∈ ordered, isWord p.1 = true ∧ isWord p.2 = true)
    {vars : Vars} (hports : ∀ name ∈ portKeys, isWord (value vars name) = true) :
    Shows vars ordered (renderComputeDerived vars r) := by
  have hset : ∀ name ∈ portKeys, ∀ dflt, isWord dflt = true → isWord (setting vars name dflt) = true := by
    intro name hname dflt hdflt
    rw [setting, PulsarDeploys.value_withDefault]
    split_ifs
    · exact hdflt
    · exact hports name hname
  have hpeer := hset "ETCD_PEER_PORT" (by decide) "2380" (by decide)
  have hclient := hset "ETCD_CLIENT_PORT" (by decide) "2379" (by decide)
  have hmilvus := hset "MILVUS_PORT" (by decide) "19530" (by decide)
  have hfails := hset "NGINX_UPSTREAM_MAX_FAILS" (by decide) "3" (by decide)
  have htimeout := hset "NGINX_UPSTREAM_FAIL_TIMEOUT_S" (by decide) "30" (by decide)
  have hcomma : isNameChar ',' = false ∧ ',' ∉ ['.', '-', ':'] := by decide
  have hline : isNameChar '\n' = false ∧ '\n' ∉ ['.', '-', ':'] := by decide
  have hsign : isNameChar '=' = false ∧ '=' ∉ ['.', '-', ':'] := by decide
  have hblank : isNameChar ' ' = false ∧ ' ' ∉ ['.', '-', ':'] := by decide
  refine ⟨?_, ?_, ?_, ?_⟩
  · have hsplit := (split_eachPeer hips hnames hne ','
      (fun name ip => name ++ "=http://" ++ ip ++ ":" ++ setting vars "ETCD_PEER_PORT" "2380")
      (fun p hp => by
        simp [notMem_word hcomma (hpeers p hp).1, notMem_word hcomma (hpeers p hp).2, notMem_word hcomma hpeer])).1
    refine (congrArg (List.map (cutAt '=')) hsplit).trans ?_
    rw [List.map_map]
    apply List.map_congr_left
    intro p hp
    have hentry : p.1 ++ "=http://" ++ p.2 ++ ":" ++ setting vars "ETCD_PEER_PORT" "2380" =
        p.1 ++ ("=" ++ ("http://" ++ p.2 ++ ":" ++ setting vars "ETCD_PEER_PORT" "2380")) := by
      have hsame : "=http://" = "=" ++ "http://" := rfl
      simp only [hsame, String.append_assoc]
    exact (congrArg (cutAt '=') hentry).trans (cutAt_append (notMem_word hsign (hpeers p hp).1) _)
  · exact (split_eachPeer hips hnames hne ',' (fun _ ip => ip ++ ":" ++ setting vars "ETCD_CLIENT_PORT" "2379")
      (fun p hp => by simp [notMem_word hcomma (hpeers p hp).2, notMem_word hcomma hclient])).1
  · have hsplit := (split_eachPeer hips hnames hne '\n'
      (fun _ ip => "    - " ++ ip ++ ":" ++ setting vars "ETCD_CLIENT_PORT" "2379")
      (fun p hp => by simp [notMem_word hline (hpeers p hp).2, notMem_word hline hclient])).1
    refine (congrArg (List.map (removePrefix "    - ")) hsplit).trans ?_
    rw [List.map_map]
    apply List.map_congr_left
    intro p _
    rw [Function.comp_apply, String.append_assoc, String.append_assoc, removePrefix_append, String.append_assoc]
  · have hsplit := (split_eachPeer hips hnames hne '\n'
      (fun _ ip => "    server " ++ ip ++ ":" ++ setting vars "MILVUS_PORT" "19530" ++
        " max_fails=" ++ setting vars "NGINX_UPSTREAM_MAX_FAILS" "3" ++
        " fail_timeout=" ++ setting vars "NGINX_UPSTREAM_FAIL_TIMEOUT_S" "30" ++ "s;")
      (fun p hp => by
        simp [notMem_word hline (hpeers p hp).2, notMem_word hline hmilvus, notMem_word hline hfails,
          notMem_word hline htimeout])).2
    have hblock : (renderComputeDerived vars r).NGINX_UPSTREAM_BLOCK = eachPeer r fun _ ip =>
        "    server " ++ ip ++ ":" ++ setting vars "MILVUS_PORT" "19530" ++
          " max_fails=" ++ setting vars "NGINX_UPSTREAM_MAX_FAILS" "3" ++
          " fail_timeout=" ++ setting vars "NGINX_UPSTREAM_FAIL_TIMEOUT_S" "30" ++ "s;" ++ String.ofList ['\n'] := by
      have hend : "s;\n" = "s;" ++ String.ofList ['\n'] := rfl
      simp only [renderComputeDerived, hend, String.append_assoc]
    rw [upstreamServers, hblock, hsplit, List.dropLast_concat, List.map_map]
    apply List.map_congr_left
    intro p hp
    have hline' : "    server " ++ p.2 ++ ":" ++ setting vars "MILVUS_PORT" "19530" ++
        " max_fails=" ++ setting vars "NGINX_UPSTREAM_MAX_FAILS" "3" ++
        " fail_timeout=" ++ setting vars "NGINX_UPSTREAM_FAIL_TIMEOUT_S" "30" ++ "s;" =
        "    server " ++ (p.2 ++ ":" ++ setting vars "MILVUS_PORT" "19530" ++ (String.ofList [' '] ++
          ("max_fails=" ++ setting vars "NGINX_UPSTREAM_MAX_FAILS" "3" ++
            " fail_timeout=" ++ setting vars "NGINX_UPSTREAM_FAIL_TIMEOUT_S" "30" ++ "s;"))) := by
      have hfirst : " max_fails=" = String.ofList [' '] ++ "max_fails=" := rfl
      simp only [hfirst, String.append_assoc]
    have hspace : ' ' ∉ (p.2 ++ ":" ++ setting vars "MILVUS_PORT" "19530").toList := by
      simp [notMem_word hblank (hpeers p hp).2, notMem_word hblank hmilvus]
    rw [Function.comp_apply, hline', removePrefix_append, cutAt_append hspace]

end Lists

/-! ## From the mirror to the rendered lists -/

/-- After a sync of the mirror the file is one of the store, in which the two lists are new.
From it the host finds its role and renders the peers of the mirror. -/
structure Renders (host : Host) (config : DaemonConfig) (peers : Mirror) (ordered : List (String × String))
    (f f' : EnvFile) (vars : Vars) (r : Role) : Prop where
  listed : Listed peers ordered
  synced : syncClusterEnv config peers f.text = f'.text
  lookup : f'.lookup = Function.update (Function.update f.lookup "PEER_IPS" (some (newPeerIps ordered)))
    "PEER_NAMES" (some (newPeerNames ordered))
  sourced : source f'.text = some vars
  read : ∀ key, last key vars = f'.lookup key
  detected : roleDetect host vars = .ok r
  role : HasRole config ordered vars r
  shows : Shows vars ordered (renderComputeDerived vars r)

section Mirror

variable {config : DaemonConfig} {peers : Mirror} {ordered : List (String × String)} {f : EnvFile}

/-- A list of words is a word. -/
theorem exists_listWord {g : String × String → String} (hordered : ∀ p ∈ ordered, isWord (g p) = true) :
    ∃ w : Word, w.value = join "," (ordered.map g) := by
  refine exists_word (plain_join fun s hs => ?_)
  obtain ⟨p, hp, rfl⟩ := List.mem_map.mp hs
  exact hordered p hp

/-- A file of the store after the two edits of a sync. -/
theorem exists_synced (f : EnvFile) (hstart : syncStart config peers = .peerIps ordered)
    (hordered : ∀ p ∈ ordered, isWord p.1 = true ∧ isWord p.2 = true) :
    ∃ f' : EnvFile, syncClusterEnv config peers f.text = f'.text ∧
      f'.lookup = Function.update (Function.update f.lookup "PEER_IPS" (some (newPeerIps ordered)))
        "PEER_NAMES" (some (newPeerNames ordered)) := by
  obtain ⟨ips, hips⟩ := exists_listWord fun p hp => (hordered p hp).2
  obtain ⟨names, hnames⟩ := exists_listWord fun p hp => (hordered p hp).1
  let first : Update := ⟨ips, ⟨"PEER_IPS", isName_peerIps⟩⟩
  let second : Update := ⟨names, ⟨"PEER_NAMES", isName_peerNames⟩⟩
  refine ⟨(f.set first).set second, ?_, ?_⟩
  · rw [← upsertKv_text, ← upsertKv_text, syncClusterEnv, hstart]
    show upsertKv "PEER_NAMES" (newPeerNames ordered) (upsertKv "PEER_IPS" (newPeerIps ordered) f.text) =
      upsertKv "PEER_NAMES" names.value (upsertKv "PEER_IPS" ips.value f.text)
    rw [hips, hnames]
    rfl
  · rw [EnvFile.lookup_set, EnvFile.lookup_set]
    show Function.update (Function.update f.lookup "PEER_IPS" (some ips.value)) "PEER_NAMES" (some names.value) = _
    rw [hips, hnames]
    rfl

/-- A file of the store has one line for a key. -/
theorem countP_names (f : EnvFile) (key : String) : f.lines.countP (Line.names key) ≤ 1 := by
  have hcount : ∀ lines : List Line, lines.countP (Line.names key) = ((shellEntries lines).map Prod.fst).count key := by
    intro lines
    induction lines with
    | nil => rfl
    | cons line lines ih =>
        rw [List.countP_cons, shellEntries_cons, List.map_append, List.count_append, ih, Nat.add_comm]
        congr 1
        cases line with
        | setting s =>
            have hown : (shellEntries [Line.setting s]).map Prod.fst = [s.name] := rfl
            rw [hown, List.count_singleton, Line.names]
            rfl
        | _ => rfl
  rw [hcount]
  exact List.nodup_iff_count_le_one.mp f.once key

/-- The pins of the host in a file of the store. -/
structure Pins (config : DaemonConfig) (f : EnvFile) : Prop where
  named : config.nodeName ≠ ""
  addressed : config.localIp ≠ ""
  nodeName : f.lookup "NODE_NAME" = some config.nodeName
  localIp : f.lookup "LOCAL_IP" = some config.localIp
  unforced : f.lookup "FORCE_NODE_INDEX" = none

theorem Pins.pinned (h : Pins config f) : Pinned config (f.lines ++ [noLine]) where
  unbroken := unbroken_text f
  named := h.named
  addressed := h.addressed
  nodeName := by
    rw [shellEntries_append, shell_noLine, List.append_nil]
    exact h.nodeName
  localIp := by
    rw [shellEntries_append, shell_noLine, List.append_nil]
    exact h.localIp
  ips := countP_names f.addBlank "PEER_IPS"
  names := countP_names f.addBlank "PEER_NAMES"

theorem Pins.readable (h : Pins config f) (host : Host)
    (hordered : ∀ p ∈ ordered, p.1 ≠ "" ∧ isWord p.1 = true ∧ isWord p.2 = true) :
    Readable host config ordered (f.lines ++ [noLine]) := by
  have hplain : ∀ g : String × String → String, (∀ p ∈ ordered, isWord (g p) = true) →
      ∀ c ∈ (join "," (ordered.map g)).toList, isPlain c = true := by
    intro g hg
    refine plain_join fun s hs => ?_
    obtain ⟨p, hp, rfl⟩ := List.mem_map.mp hs
    exact hg p hp
  have hips : ∀ c ∈ (newPeerIps ordered).toList, isPlain c = true := hplain Prod.snd fun p hp => (hordered p hp).2.2
  have hnames : ∀ c ∈ (newPeerNames ordered).toList, isPlain c = true :=
    hplain Prod.fst fun p hp => (hordered p hp).2.1
  obtain ⟨ips, hipsValue⟩ := exists_word hips
  obtain ⟨names, hnamesValue⟩ := exists_word hnames
  have hblank : ∀ line ∈ (f.lines ++ [noLine]).getLast?, ∃ spaces h, line = .blank spaces h := by
    intro line hline
    rw [List.getLast?_concat] at hline
    exact ⟨_, _, (Option.some.inj hline).symm⟩
  have hforced : value (shellEntries (f.lines ++ [noLine])) "FORCE_NODE_INDEX" = "" := by
    have hnone : last "FORCE_NODE_INDEX" (shellEntries f.lines) = none := h.unforced
    rw [value, shellEntries_append, shell_noLine, List.append_nil, hnone, Option.getD_none]
  refine ⟨hipsValue ▸ ips.literal, fun hmem => ?_, .inr hblank, .inl hforced,
    fun _ => ⟨hnamesValue ▸ names.literal, ?_⟩, fun happart => absurd (.inl (.inr hblank)) happart⟩
  · exact absurd (hips _ hmem) (by decide)
  · intro hlast
    obtain ⟨p, hp, hempty⟩ := List.mem_map.mp (List.mem_of_getLast? hlast)
    exact (hordered p hp).1 hempty

/-- Whatever the file held, after a sync this host renders the peers of the mirror. -/
theorem renders_synced (host : Host) (hpins : Pins config f) (hstart : syncStart config peers = .peerIps ordered)
    (hwords : ∀ name info ip, peers.get name = some info → usedIp info = some ip →
      name ≠ "" ∧ isWord name = true ∧ isWord ip = true)
    (hself : (∃ name info, peers.get name = some info ∧ usedIp info = some config.localIp) →
      ∃ info, peers.get config.nodeName = some info ∧ usedIp info = some config.localIp)
    (hports : ∀ name ∈ portKeys, ∀ v, f.lookup name = some v → isWord v = true) :
    ∃ f' vars r, Renders host config peers ordered f f' vars r := by
  obtain ⟨hlisted, -, -⟩ := listed_of_start hstart
  have hordered : ∀ p ∈ ordered, p.1 ≠ "" ∧ isWord p.1 = true ∧ isWord p.2 = true := by
    intro p hp
    obtain ⟨info, hinfo, hused⟩ := (hlisted.mem p.1 p.2).mp hp
    exact hwords p.1 info p.2 hinfo hused
  have hcomma : isNameChar ',' = false ∧ ',' ∉ ['.', '-', ':'] := by decide
  have hmembers := members_of_start hstart hpins.addressed
    (fun name info ip hinfo hused => ⟨notMem_word hcomma (hwords name info ip hinfo hused).2.1,
      notMem_word hcomma (hwords name info ip hinfo hused).2.2⟩) hself
  have hne : ordered ≠ [] := List.ne_nil_of_mem hmembers.self
  obtain ⟨f', hsynced, hlookup⟩ := exists_synced f hstart fun p hp => (hordered p hp).2
  obtain ⟨vars, hsourced, hread⟩ := f'.holds.sourced
  obtain ⟨vars', r, hsourced', hdetected, hrole⟩ :=
    (hpins.readable host hordered).reads hpins.pinned (by simp) hmembers
  have hsame : vars' = vars := by
    have htext : syncClusterEnv config peers f.text =
        upsertKv "PEER_NAMES" (newPeerNames ordered) (upsertKv "PEER_IPS" (newPeerIps ordered) f.text) := by
      rw [syncClusterEnv, hstart]
    have hboth := hsourced'.symm.trans ((congrArg source (htext.symm.trans hsynced)).trans hsourced)
    exact Option.some.inj hboth
  subst hsame
  refine ⟨f', vars', r, hlisted, hsynced, hlookup, hsourced, hread, hdetected, hrole, ?_⟩
  refine shows_rendered hrole.ips hrole.names hne (fun p hp => (hordered p hp).2) fun name hname => ?_
  have hkept : f'.lookup name = f.lookup name := by
    have hother : ∀ key ∈ portKeys, key ≠ "PEER_IPS" ∧ key ≠ "PEER_NAMES" := by decide
    rw [hlookup, Function.update_of_ne (hother name hname).2, Function.update_of_ne (hother name hname).1]
  rw [value, hread, hkept]
  cases hport : f.lookup name with
  | none => decide
  | some v => exact hports name hname v hport

end Mirror

theorem unbroken_oldLines : ∀ line ∈ oldLines, Unbroken line.render := by decide +kernel

theorem alike_oldLines : ∀ line ∈ oldLines, readEntries [line] = shellEntries [line] := by decide +kernel

theorem once_oldLines : ((shellEntries oldLines).map Prod.fst).Nodup := by decide

/-- The file of the second node, finished. -/
def oldFile : EnvFile := ⟨oldLines, unbroken_oldLines, alike_oldLines, once_oldLines⟩

theorem renders_synced_survivors : ∃ f' vars r, Renders quietHost secondNode survivors
    [("node-2", "10.0.0.2"), ("node-3", "10.0.0.3")] oldFile f' vars r := by
  refine renders_synced quietHost ⟨by decide, by decide, by decide, by decide, by decide⟩ (by decide +kernel) ?_
    (fun _ => survivors_self) (by decide)
  intro name info ip hinfo hused
  have hmem : (name, info) ∈ survivors.entries := OrderedMap.mem_entries.mpr hinfo
  rw [survivors, List.mem_cons, List.mem_singleton] at hmem
  rcases hmem with hmem | hmem
  · cases hmem
    cases hused
    decide
  · cases hmem
    cases hused
    decide

end MilvusOnprem.RenderedPeers
