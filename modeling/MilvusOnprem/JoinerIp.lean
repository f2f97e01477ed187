import MilvusOnprem.IssuedEnv
import MilvusOnprem.JoinLists

/-!
# The address of a joiner

`handle_join` takes four numbers up to 255 of one to three digits each, with dots between
them. The check is loose by intent: a number may have leading zeros, so an address has
more than one accepted spelling. The lines of the issued `cluster.env` that depend on the
joiner are read back as they were put in.
-/
namespace MilvusOnprem.JoinerIp

open PythonText ClusterEnv MilvusOnprem.Topology Joining EnvText EnvUpsert EnvFormat IssuedEnv JoinLists ShellSource
open Assignments OrderedPeers
open JsonText (Digits digitsValue natDigits)
open MinioRender (readArray IsField readArray_join)
open SharedSettings (lineBreaks Unbroken joinerHead)

/-- Characters of ASCII, and no newline. -/
def Typed (s : String) : Prop := ∀ c ∈ s.toList, c.toNat < 128 ∧ c ≠ '\n'

/-- A number up to 255, with at most three digits. -/
structure IsNumber (ds : List Char) : Prop where
  digits : Digits ds
  nonempty : ds ≠ []
  short : ds.length ≤ 3
  small : digitsValue ds ≤ 255

def dotted (a b c d : List Char) : String := String.ofList (a ++ '.' :: (b ++ '.' :: (c ++ '.' :: d)))

def Loose (ip : String) : Prop :=
  ∃ a b c d, IsNumber a ∧ IsNumber b ∧ IsNumber c ∧ IsNumber d ∧ ip = dotted a b c d

def quad (a b c d : Fin 256) : String :=
  dotted (natDigits a) (natDigits b) (natDigits c) (natDigits d)

/-- The spelling without leading zeros. -/
def Canonical (ip : String) : Prop := ∃ a b c d, ip = quad a b c d

/-- The numbers of the address that a text denotes. -/
def address (ip : String) : Option (List ℕ) := (ip.toList.splitOn '.').mapM parseDigits

/-! ## What is accepted -/

theorem isDigit_of_decimalDigit {c : Char} (hc : c.toNat < 128) (h : (decimalDigit c).isSome = true) :
    JsonText.isDigit c = true := by
  obtain ⟨d, hd⟩ := Option.isSome_iff_exists.mp h
  obtain ⟨z, hz, hvalue⟩ := List.exists_of_findSome?_eq_some hd
  split_ifs at hvalue with hrange
  have hascii : ∀ z ∈ decimalZeros, z < 128 → z = 48 := by decide
  have hzero := hascii z hz (Nat.lt_of_le_of_lt hrange.1 hc)
  simp only [JsonText.isDigit, Bool.and_eq_true, decide_eq_true_eq]
  omega

theorem isOctet_iff {part : List Char} (h : ∀ c ∈ part, c.toNat < 128) :
    isOctet part = true ↔ IsNumber part := by
  rw [isOctet, Bool.and_eq_true, decide_eq_true_eq, Option.any_eq_true]
  constructor
  · rintro ⟨hshort, n, hn, hsmall⟩
    have hdigits : Digits part := fun c hc => isDigit_of_decimalDigit (h c hc) (parseDigits_chars hn c hc)
    have hne : part ≠ [] := by
      rintro rfl
      cases hn
    rw [parseDigits_digits hne hdigits, Option.some.injEq] at hn
    exact ⟨hdigits, hne, hshort, hn ▸ of_decide_eq_true hsmall⟩
  · rintro ⟨hdigits, hne, hshort, hsmall⟩
    exact ⟨hshort, _, parseDigits_digits hne hdigits, decide_eq_true hsmall⟩

theorem dot_notMem {ds : List Char} (h : IsNumber ds) : '.' ∉ ds := by
  intro hdot
  exact absurd (h.digits _ hdot) (by decide)

theorem splitOn_dotted {a b c d : List Char} (ha : IsNumber a) (hb : IsNumber b) (hc : IsNumber c)
    (hd : IsNumber d) : (dotted a b c d).toList.splitOn '.' = [a, b, c, d] := by
  have hparts : (dotted a b c d).toList = ['.'].intercalate [a, b, c, d] := by
    simp [dotted, List.intercalate, List.intersperse]
  rw [hparts, List.splitOn_intercalate]
  · simp only [List.mem_cons, List.not_mem_nil, or_false, forall_eq_or_imp, forall_eq]
    exact ⟨dot_notMem ha, dot_notMem hb, dot_notMem hc, dot_notMem hd⟩
  · exact List.cons_ne_nil _ _

theorem isValidIpv4_iff {ip : String} (h : Typed ip) : isValidIpv4 ip = true ↔ Loose ip := by
  have hdrop : dropFinalNewline ip.toList = ip.toList := by
    rw [dropFinalNewline, if_neg fun hl => (h _ (List.mem_of_getLast? hl)).2 rfl]
  rw [isValidIpv4, hdrop, Bool.and_eq_true, decide_eq_true_eq, List.all_eq_true]
  constructor
  · rintro ⟨hlength, hoctets⟩
    have hnumber : ∀ part ∈ ip.toList.splitOn '.', IsNumber part := fun part hpart =>
      (isOctet_iff fun c hc => (h c (mem_splitOn hpart hc).1).1).mp (hoctets part hpart)
    have hjoin : ['.'].intercalate (ip.toList.splitOn '.') = ip.toList := List.intercalate_splitOn '.'
    obtain ⟨a, b, c, d, hparts⟩ := List.length_eq_four.mp hlength
    rw [hparts] at hnumber hjoin
    refine ⟨a, b, c, d, hnumber a ?_, hnumber b ?_, hnumber c ?_, hnumber d ?_, String.toList_injective ?_⟩
    · simp
    · simp
    · simp
    · simp
    · rw [← hjoin]
      simp [dotted, List.intercalate, List.intersperse]
  · rintro ⟨a, b, c, d, ha, hb, hc, hd, rfl⟩
    rw [splitOn_dotted ha hb hc hd]
    have hoctet : ∀ {ds}, IsNumber ds → isOctet ds = true := by
      intro ds hds
      exact Bool.and_eq_true_iff.mpr ⟨decide_eq_true hds.short, (Option.any_eq_true _ _).mpr
        ⟨_, parseDigits_digits hds.nonempty hds.digits, decide_eq_true hds.small⟩⟩
    refine ⟨rfl, ?_⟩
    simp only [List.mem_cons, List.not_mem_nil, or_false, forall_eq_or_imp, forall_eq]
    exact ⟨hoctet ha, hoctet hb, hoctet hc, hoctet hd⟩

theorem start_queued {c : JoinCall} : c.start = .queued ↔ isValidIpv4 c.joinerIp = true := by
  unfold JoinCall.start
  split_ifs with h
  · exact iff_of_true rfl h
  · exact iff_of_false nofun h

/-! ## Spellings of an address -/

theorem isNumber_natDigits (n : Fin 256) : IsNumber (natDigits n) := by
  have hshort : ∀ n : Fin 256, (natDigits n).length ≤ 3 := by decide +kernel
  obtain ⟨c, cs, hcs, -⟩ := JsonText.natDigits_cons n
  refine ⟨JsonText.natDigits_digits n, by rw [hcs]; exact List.cons_ne_nil c cs, hshort n, ?_⟩
  rw [JsonText.natDigits_value]
  omega

theorem loose_of_canonical {ip : String} (h : Canonical ip) : Loose ip := by
  obtain ⟨a, b, c, d, rfl⟩ := h
  exact ⟨_, _, _, _, isNumber_natDigits a, isNumber_natDigits b, isNumber_natDigits c, isNumber_natDigits d, rfl⟩

theorem address_dotted {a b c d : List Char} (ha : IsNumber a) (hb : IsNumber b) (hc : IsNumber c)
    (hd : IsNumber d) :
    address (dotted a b c d) = some [digitsValue a, digitsValue b, digitsValue c, digitsValue d] := by
  have hparse : ∀ {ds}, IsNumber ds → parseDigits ds = some (digitsValue ds) := fun hds =>
    parseDigits_digits hds.nonempty hds.digits
  rw [address, splitOn_dotted ha hb hc hd]
  simp [hparse ha, hparse hb, hparse hc, hparse hd]

theorem address_quad (a b c d : Fin 256) : address (quad a b c d) = some [a.val, b.val, c.val, d.val] := by
  rw [quad, address_dotted (isNumber_natDigits a) (isNumber_natDigits b) (isNumber_natDigits c)
    (isNumber_natDigits d)]
  simp only [JsonText.natDigits_value]

theorem eq_iff_address {ip ip' : String} (h : Canonical ip) (h' : Canonical ip') :
    ip = ip' ↔ address ip = address ip' := by
  obtain ⟨a, b, c, d, rfl⟩ := h
  obtain ⟨a', b', c', d', rfl⟩ := h'
  refine ⟨congrArg address, fun hsame => ?_⟩
  simp only [address_quad, Option.some.injEq, List.cons.injEq, Fin.val_inj, and_true] at hsame
  obtain ⟨rfl, rfl, rfl, rfl⟩ := hsame
  rfl

/-- Every accepted text denotes an address. -/
theorem exists_canonical {ip : String} (h : Loose ip) : ∃ ip', Canonical ip' ∧ address ip' = address ip := by
  obtain ⟨a, b, c, d, ha, hb, hc, hd, rfl⟩ := h
  have hlt : ∀ {ds}, IsNumber ds → digitsValue ds < 256 := fun hds => Nat.lt_succ_of_le hds.small
  refine ⟨quad ⟨_, hlt ha⟩ ⟨_, hlt hb⟩ ⟨_, hlt hc⟩ ⟨_, hlt hd⟩, ⟨_, _, _, _, rfl⟩, ?_⟩
  rw [address_quad, address_dotted ha hb hc hd]

theorem isWord_of_loose {ip : String} (h : Loose ip) : isWord ip = true := by
  obtain ⟨a, b, c, d, ha, hb, hc, hd, rfl⟩ := h
  have hdigit : ∀ c, JsonText.isDigit c = true → (isNameChar c || ".-:".toList.contains c) = true := by
    intro c hc
    rw [isNameChar, Bool.or_eq_true, Bool.or_eq_true]
    simp only [JsonText.isDigit, Bool.and_eq_true, decide_eq_true_eq] at hc
    refine .inl (.inr ?_)
    simp only [Bool.and_eq_true, decide_eq_true_eq]
    exact hc
  refine List.all_eq_true.mpr fun x hx => ?_
  simp only [dotted, String.toList_ofList, List.mem_append, List.mem_cons] at hx
  rcases hx with hx | rfl | hx | rfl | hx | rfl | hx
  · exact hdigit x (ha.digits x hx)
  · decide
  · exact hdigit x (hb.digits x hx)
  · decide
  · exact hdigit x (hc.digits x hx)
  · decide
  · exact hdigit x (hd.digits x hx)

/-! ## Reading the issued lines -/

/-- The readers of the daemon have the value for the key, and the only line of the text
that sets the key is one that gives a shell the value. -/
structure ReadsBack (text key value : String) : Prop where
  dict : dictValue text key = some value
  env : ∀ dflt, readClusterEnvValue (some text) key dflt = value
  line : (split '\n' text).filter (sets key) = [assignment key value]
  shell : sourceLine (assignment key value).toList = some [(key, value)]

/-- The keys whose lines depend on the joiner. -/
def joinerKeys : List String := ["NODE_NAME", "LOCAL_IP", "PEER_IPS", "PEER_NAMES"]

theorem sets_assignment {key name : String} (hkey : Findable key) (hname : Findable name) (value : String) :
    sets key (assignment name value) = decide (name = key) := by
  by_cases hsame : name = key
  · rw [hsame, decide_eq_true rfl, sets, assignment, startsWith_append]
  · rw [decide_eq_false hsame, Bool.eq_false_iff]
    intro hsets
    exact hsame (envEntry_sets hkey hsets _ (envEntry_assigned hname))

theorem filter_joinerHead {nodeName localIp ips issuedAt key value : String} {names : List String}
    (hkey : key ∈ joinerKeys)
    (hvalue : (key, value) ∈ [("NODE_NAME", nodeName), ("LOCAL_IP", localIp), ("PEER_IPS", ips),
      ("PEER_NAMES", join "," names)]) :
    (joinerHead nodeName localIp ips issuedAt names).filter (sets key) = [assignment key value] := by
  have hfindable : ∀ name ∈ "ETCD_INITIAL_CLUSTER_STATE" :: joinerKeys, Findable name := fun name hname =>
    findable_name ((show ∀ name ∈ "ETCD_INITIAL_CLUSTER_STATE" :: joinerKeys,
      isName name.toList = true by decide) name hname)
  have hset : ∀ name ∈ "ETCD_INITIAL_CLUSTER_STATE" :: joinerKeys, ∀ text,
      sets key (assignment name text) = decide (name = key) := fun name hname text =>
    sets_assignment (hfindable key (List.mem_cons_of_mem _ hkey)) (hfindable name hname) text
  have hcomment : ∀ text, sets key ("#" ++ text) = false := by
    intro text
    have hfirst : ∀ key ∈ joinerKeys, ∃ c cs, key.toList = c :: cs ∧ c ≠ '#' := by
      intro key hkey
      simp only [joinerKeys, List.mem_cons, List.not_mem_nil, or_false] at hkey
      rcases hkey with rfl | rfl | rfl | rfl <;> exact ⟨_, _, rfl, by decide⟩
    obtain ⟨c, cs, hcs, hne⟩ := hfirst key hkey
    rw [sets, startsWith, String.toList_append, String.toList_append, hcs]
    simp [List.isPrefixOf, hne]
  have hhead : joinerHead nodeName localIp ips issuedAt names =
      ["#" ++ " =============================================================================",
        "#" ++ " milvus-onprem cluster.env (joiner copy)", "#" ++ (" Issued by leader at " ++ issuedAt),
        "#" ++ " =============================================================================", "",
        assignment "NODE_NAME" nodeName, assignment "LOCAL_IP" localIp, assignment "PEER_IPS" ips,
        assignment "PEER_NAMES" (join "," names), assignment "ETCD_INITIAL_CLUSTER_STATE" "existing", ""] := rfl
  have hempty : ∀ key ∈ joinerKeys, sets key "" = false := by decide
  rw [hhead]
  simp only [List.filter_cons, List.filter_nil, hcomment, hempty key hkey, hset "NODE_NAME" (by decide),
    hset "LOCAL_IP" (by decide), hset "PEER_IPS" (by decide), hset "PEER_NAMES" (by decide),
    hset "ETCD_INITIAL_CLUSTER_STATE" (by decide)]
  simp only [List.mem_cons, List.not_mem_nil, or_false, Prod.mk.injEq] at hvalue
  rcases hvalue with ⟨rfl, rfl⟩ | ⟨rfl, rfl⟩ | ⟨rfl, rfl⟩ | ⟨rfl, rfl⟩ <;> simp

/-- The lines of the head of a text that is built are read back. -/
theorem readsBack_built {file nodeName localIp issuedAt text : String} {ips : List Json}
    {names : List String} (hissued : isWord issuedAt = true)
    (hnames : ∀ name ∈ names, isWord name = true) (hips : ∀ ip, Json.str ip ∈ ips → isWord ip = true)
    (h : buildJoinerClusterEnv (parseClusterEnv file) nodeName localIp ips names issuedAt = .ok text) :
    ∃ texts : List String, ips = texts.map Json.str ∧
      ∀ key value, (key, value) ∈ [("NODE_NAME", nodeName), ("LOCAL_IP", localIp),
        ("PEER_IPS", join "," texts), ("PEER_NAMES", join "," names)] → ReadsBack text key value := by
  obtain ⟨hnode, hlocal⟩ := self_listed h
  obtain ⟨texts, head, rfl, hhead, hentries, hunbroken, -, htext⟩ := built_text hissued hnames hips h
  refine ⟨texts, rfl, fun key value hvalue => ?_⟩
  have hkey : key ∈ joinerKeys := List.mem_map_of_mem (f := Prod.fst) hvalue
  have hper : key ∈ perPeerKeys := (show ∀ key ∈ joinerKeys, key ∈ perPeerKeys by decide) key hkey
  have hname : isName key.toList = true :=
    (show ∀ key ∈ joinerKeys, isName key.toList = true by decide) key hkey
  have hfindable := findable_name hname
  have hplain : ∀ c ∈ value.toList, isPlain c = true := by
    have hwords : ∀ t ∈ texts, isWord t = true := fun t ht => hips t (List.mem_map_of_mem ht)
    simp only [List.mem_cons, List.not_mem_nil, or_false, Prod.mk.injEq] at hvalue
    rcases hvalue with ⟨-, rfl⟩ | ⟨-, rfl⟩ | ⟨-, rfl⟩ | ⟨-, rfl⟩
    · exact plain_of_word (hnames _ hnode)
    · exact plain_of_word (hips _ hlocal)
    · exact plain_join hwords
    · exact plain_join hnames
  have hother : ∀ e ∈ ((parseClusterEnv file).filter fun kv => kv.1 ∉ perPeerKeys).map
      (fun kv => (kv.1, unwrapped kv.2)), e.1 ≠ key := by
    intro e he
    obtain ⟨kv, hkv, rfl⟩ := List.mem_map.mp he
    rintro rfl
    exact (mem_shared hkv).2.1 hper
  have hmem : (key, value) ∈ readEntries head := by
    rw [hentries]
    exact List.mem_append_left [("ETCD_INITIAL_CLUSTER_STATE", "existing")] hvalue
  have hnodup : ((readEntries head).map Prod.fst).Nodup := by
    rw [hentries]
    exact (show ("NODE_NAME" :: "LOCAL_IP" :: "PEER_IPS" :: "PEER_NAMES" ::
      ["ETCD_INITIAL_CLUSTER_STATE"]).Nodup by decide)
  refine ⟨?_, fun dflt => ?_, ?_, ?_⟩
  · rw [dictValue_eq_last, if_neg hfindable.named,
      entriesAt_built (by decide) (by decide) (fun _ hn => hn) hunbroken htext, last_append,
      last_eq_none.mpr hother, Option.none_or, last_of_mem hnodup hmem]
  · rw [readClusterEnvValue_eq, entriesAt_built (by decide) (by decide) (by decide) hunbroken htext,
      first_append, first_of_mem hnodup hmem]
    rfl
  · have hparts : text = join (String.ofList ['\n']) (head.map Line.render ++ ((parseClusterEnv file).filter
        fun kv => kv.1 ∉ perPeerKeys).map (fun kv => assignment kv.1 kv.2) ++ [""]) :=
      String.toList_injective (by rw [htext, ← toList_join_newline])
    have hnewline : ∀ line ∈ head.map Line.render ++ ((parseClusterEnv file).filter
        fun kv => kv.1 ∉ perPeerKeys).map (fun kv => assignment kv.1 kv.2) ++ [""], '\n' ∉ line.toList := by
      intro line hline
      rw [List.mem_append, List.mem_append] at hline
      rcases hline with (hline | hline) | hline
      · obtain ⟨l, -, rfl⟩ := List.mem_map.mp hline
        exact newline_notMem_render l
      · obtain ⟨kv, hkv, rfl⟩ := List.mem_map.mp hline
        obtain ⟨-, -, hkv, hvalue⟩ := mem_shared hkv
        exact fun hmem => SharedSettings.unbroken_assignment hkv.unbroken hvalue _ hmem (by decide)
      · rw [List.mem_singleton.mp hline]
        exact nofun
    have hshared : (((parseClusterEnv file).filter fun kv => kv.1 ∉ perPeerKeys).map
        fun kv => assignment kv.1 kv.2).filter (sets key) = [] := by
      refine List.filter_eq_nil_iff.mpr fun line hline => ?_
      obtain ⟨kv, hkv, rfl⟩ := List.mem_map.mp hline
      obtain ⟨-, hper', hkvFindable, -⟩ := mem_shared hkv
      rw [sets_assignment hfindable hkvFindable, decide_eq_true_eq]
      rintro rfl
      exact hper' hper
    have hend : [""].filter (sets key) = [] :=
      (show ∀ key ∈ joinerKeys, [""].filter (sets key) = [] by decide) key hkey
    rw [hparts, split_join '\n' (by simp) hnewline, List.filter_append, List.filter_append, hhead, hshared,
      hend, filter_joinerHead hkey hvalue, List.append_nil, List.append_nil]
  · have hliteral : Literal value := by
      refine ⟨literalFrom_plain hplain, fun hm => ?_, fun hm => ?_⟩
      · exact absurd (plain_toNat (hplain _ hm)).1 (by decide)
      · exact absurd (plain_toNat (hplain _ hm)).1 (by decide)
    rw [toList_assignment, sourceLine_literal hname hliteral]

/-! ## The joins that are accepted -/

theorem typed_of_loose {ip : String} (h : Loose ip) : Typed ip := by
  intro c hc
  have hplain := plain_toNat (plain_of_word (isWord_of_loose h) c hc)
  refine ⟨Nat.lt_of_le_of_lt hplain.2 (by decide), ?_⟩
  rintro rfl
  exact absurd hplain.1 (by decide)

theorem queued_iff {c : JoinCall} (h : Typed c.joinerIp) : c.start = .queued ↔ Loose c.joinerIp :=
  start_queued.trans (isValidIpv4_iff h)

theorem queued_of_canonical {c : JoinCall} (h : Canonical c.joinerIp) : c.start = .queued :=
  (queued_iff (typed_of_loose (loose_of_canonical h))).mpr (loose_of_canonical h)

/-- The names and the ips of the peers are words. -/
structure Named (peers : List (String × Json)) : Prop extends WellFormed peers where
  wordNames : ∀ e ∈ peers, isWord e.1 = true ∧ e.1 ≠ ""
  wordIps : ∀ e ∈ peers, ∀ ip, usedIp e.2 = some ip → isWord ip = true

theorem usedIp_ne_empty {fields : List (String × Json)} {ip : String}
    (hjoin : EnvSync.joinable (.obj fields) = true) (h : usedIp (.obj fields) = some ip) : ip ≠ "" := by
  rintro rfl
  simp only [usedIp] at h
  simp only [EnvSync.joinable] at hjoin
  split at h
  · next v hv =>
      split_ifs at h with htruthy
      rw [hv] at hjoin
      cases v with
      | str s =>
          have hempty : s = "" := Option.some.inj h
          rw [hempty] at htruthy
          cases htruthy
      | _ =>
          dsimp only at hjoin
          rw [htruthy] at hjoin
          cases hjoin
  · cases h

theorem isField_word {s : String} (h : isWord s = true) (hne : s ≠ "") : IsField s := by
  have hnone : ∀ c : Char, (isNameChar c || ".-:".toList.contains c) = false → c ∉ s.toList := by
    intro c hc hmem
    rw [List.all_eq_true.mp h c hmem] at hc
    cases hc
  exact ⟨hne, hnone ',' (by decide), hnone '\n' (by decide)⟩

theorem issued_reads_back {c : JoinCall} {name : String} {others : List (String × Json)}
    {file : Option String} {issuedAt text : String} (h : Named others) (hname : isWord name = true)
    (hne : name ≠ "") (hfree : name ∉ others.map Prod.fst) (hip : Loose c.joinerIp)
    (hissued : isWord issuedAt = true) (henv : c.joinerEnv name others file issuedAt = .ok text) :
    ∃ pairs : List (String × String),
      orderedPeerNamesAndIpsAfterJoin others name c.joinerIp = .ok (asJson pairs) ∧
      ReadsBack text "NODE_NAME" name ∧ ReadsBack text "LOCAL_IP" c.joinerIp ∧
      ReadsBack text "PEER_IPS" (join "," (pairs.map Prod.snd)) ∧
      ReadsBack text "PEER_NAMES" (join "," (pairs.map Prod.fst)) ∧
      readArray (join "," (pairs.map Prod.snd)) = pairs.map Prod.snd ∧
      readArray (join "," (pairs.map Prod.fst)) = pairs.map Prod.fst := by
  have hipWord := isWord_of_loose hip
  have hipNe : c.joinerIp ≠ "" := by
    obtain ⟨a, b, c', d, -, -, -, -, hdotted⟩ := hip
    rw [hdotted, dotted]
    intro hempty
    simpa using congrArg String.toList hempty
  have hinfo : ipOf (.obj [("ip", .str c.joinerIp)]) = some c.joinerIp := rfl
  have hall := h.toWellFormed.joined hfree hinfo
  have hpairs := orderedPeerNamesAndIpsAfterJoin_eq h.toWellFormed hfree hipNe hinfo
  generalize hlist : used (byNode ((name, .obj [("ip", .str c.joinerIp)]) :: others)) = pairs at hpairs
  have hself : (name, c.joinerIp) ∈ pairs := by
    rw [← hlist, mem_used]
    exact ⟨_, (List.mem_insertionSort _).mpr List.mem_cons_self, (usedIp_of_ipOf hinfo hipNe).1⟩
  have hwords : ∀ p ∈ pairs, (isWord p.1 = true ∧ p.1 ≠ "") ∧ isWord p.2 = true ∧ p.2 ≠ "" := by
    rintro ⟨n, ip⟩ hp
    rw [← hlist, mem_used] at hp
    obtain ⟨info, hmem, hused⟩ := hp
    rcases List.mem_cons.mp ((List.mem_insertionSort _).mp hmem) with heq | hmem
    · cases heq
      rw [(usedIp_of_ipOf hinfo hipNe).1, Option.some.injEq] at hused
      exact ⟨⟨hname, hne⟩, hused ▸ ⟨hipWord, hipNe⟩⟩
    · obtain ⟨fields, rfl, hjoin⟩ := h.infos _ hmem
      exact ⟨h.wordNames _ hmem, h.wordIps _ hmem ip hused, usedIp_ne_empty hjoin hused⟩
  have hnames : (asJson pairs).map Prod.fst = pairs.map Prod.fst := by
    rw [asJson, List.map_map]
    rfl
  simp only [JoinCall.joinerEnv, hpairs, bind, Except.bind] at henv
  cases file with
  | none => cases henv
  | some file =>
      simp only [readClusterEnv] at henv
      obtain ⟨texts, htexts, hreads⟩ := readsBack_built hissued
        (by
          intro n hn
          rw [hnames] at hn
          obtain ⟨p, hp, rfl⟩ := List.mem_map.mp hn
          exact (hwords p hp).1.1)
        (by
          intro ip hip'
          obtain ⟨e, he, hes⟩ := List.mem_map.mp hip'
          obtain ⟨p, hp, rfl⟩ := List.mem_map.mp he
          cases hes
          exact (hwords p hp).2.1) henv
      have hips : texts = pairs.map Prod.snd := by
        refine List.map_injective_iff.mpr (fun a b hab => Json.str.inj hab) ?_
        rw [← htexts, asJson, List.map_map, List.map_map]
        rfl
      rw [hips, hnames] at hreads
      have hpairsNe : pairs ≠ [] := List.ne_nil_of_mem hself
      refine ⟨pairs, hpairs, hreads _ _ (by simp), hreads _ _ (by simp), hreads _ _ (by simp),
        hreads _ _ (by simp), readArray_join (by simpa using hpairsNe) ?_,
        readArray_join (by simpa using hpairsNe) ?_⟩
      · intro s hs
        obtain ⟨p, hp, rfl⟩ := List.mem_map.mp hs
        exact isField_word (hwords p hp).2.1 (hwords p hp).2.2
      · intro s hs
        obtain ⟨p, hp, rfl⟩ := List.mem_map.mp hs
        exact isField_word (hwords p hp).1.1 (hwords p hp).1.2

/-- A text of ASCII characters on one line is accepted if and only if it is four numbers
up to 255 of one to three digits. That includes the canonical spelling of every address,
and canonical spellings are equal if and only if they denote the same address. The lines
of an issued `cluster.env` that depend on the joiner are read back as what was put in. -/
theorem accepted_ips :
    (∀ c : JoinCall, Typed c.joinerIp → (c.start = .queued ↔ Loose c.joinerIp)) ∧
    (∀ c : JoinCall, Canonical c.joinerIp → c.start = .queued) ∧
    (∀ ip ip', Canonical ip → Canonical ip' → (ip = ip' ↔ address ip = address ip')) ∧
    (∀ ip, Loose ip → ∃ ip', Canonical ip' ∧ address ip' = address ip) ∧
    ∀ (c : JoinCall) (name : String) (others : List (String × Json)) (file : Option String)
      (issuedAt text : String), Typed c.joinerIp → c.start = .queued → Named others →
      isWord name = true → name ≠ "" → name ∉ others.map Prod.fst → isWord issuedAt = true →
      c.joinerEnv name others file issuedAt = .ok text →
      ∃ pairs : List (String × String),
        orderedPeerNamesAndIpsAfterJoin others name c.joinerIp = .ok (asJson pairs) ∧
        ReadsBack text "NODE_NAME" name ∧ ReadsBack text "LOCAL_IP" c.joinerIp ∧
        ReadsBack text "PEER_IPS" (join "," (pairs.map Prod.snd)) ∧
        ReadsBack text "PEER_NAMES" (join "," (pairs.map Prod.fst)) ∧
        readArray (join "," (pairs.map Prod.snd)) = pairs.map Prod.snd ∧
        readArray (join "," (pairs.map Prod.fst)) = pairs.map Prod.fst := by
  refine ⟨fun c h => queued_iff h, fun c h => queued_of_canonical h, fun ip ip' h h' => eq_iff_address h h',
    fun ip h => exists_canonical h, ?_⟩
  intro c name others file issuedAt text htyped hqueued hothers hname hne hfree hissued henv
  exact issued_reads_back hothers hname hne hfree ((queued_iff htyped).mp hqueued) hissued henv

def onePeer : List (String × Json) := [("node-1", .obj [("ip", .str "10.0.0.1")])]

theorem named_onePeer : Named onePeer := by
  refine ⟨⟨by decide, fun e he => ?_⟩, fun e he => ?_, fun e he ip hip => ?_⟩
  all_goals rw [List.mem_singleton.mp he] at *
  · exact ⟨_, rfl, rfl⟩
  · decide
  · cases hip
    decide

theorem canonical_second : Canonical secondJoiner.joinerIp := ⟨10, 0, 0, 2, by decide⟩

theorem accepted_ips_second : secondJoiner.start = .queued ∧ Loose secondJoiner.joinerIp ∧
    (secondJoiner.joinerIp = secondJoiner.joinerIp ↔ address secondJoiner.joinerIp = some [10, 0, 0, 2]) ∧
    (∃ ip, Canonical ip ∧ address ip = address secondJoiner.joinerIp) ∧
    ∃ text, secondJoiner.joinerEnv "node-2" onePeer (some "MINIO_PORT=9000") "2024-01-01T00:00:00Z" = .ok text ∧
      ReadsBack text "NODE_NAME" "node-2" ∧ ReadsBack text "LOCAL_IP" "10.0.0.2" := by
  have htyped := typed_of_loose (loose_of_canonical canonical_second)
  have hqueued := accepted_ips.2.1 secondJoiner canonical_second
  have hloose := (accepted_ips.1 secondJoiner htyped).mp hqueued
  have haddress : address secondJoiner.joinerIp = some [10, 0, 0, 2] := by decide
  refine ⟨hqueued, hloose, ?_, accepted_ips.2.2.2.1 _ hloose, ?_⟩
  · rw [accepted_ips.2.2.1 _ _ canonical_second canonical_second, haddress]
  · have hips : ∀ e ∈ onePeer, ∃ ip, ipOf e.2 = some ip := by
      intro e he
      rw [List.mem_singleton.mp he]
      exact ⟨_, rfl⟩
    obtain ⟨text, htext⟩ := secondJoiner.joinerEnv_ok "node-2" hips "MINIO_PORT=9000" "2024-01-01T00:00:00Z"
    obtain ⟨pairs, -, hname, hip, -⟩ := accepted_ips.2.2.2.2 secondJoiner "node-2" onePeer _ _ text htyped
      hqueued named_onePeer (by decide) (by decide) (by decide) (by decide) htext
    exact ⟨text, htext, hname, hip⟩

/-- A number may have leading zeros, and then an address has two accepted spellings. -/
theorem leading_zero_accepted :
    (¬∀ c : JoinCall, c.start = .queued ↔ Canonical c.joinerIp) ∧
    ¬∀ c c' : JoinCall, c.start = .queued → c'.start = .queued →
      (c.joinerIp = c'.joinerIp ↔ address c.joinerIp = address c'.joinerIp) := by
  have hzero : (⟨bootConfig, "010.0.0.2", none⟩ : JoinCall).start = .queued := by decide
  have hsame : address "010.0.0.2" = address secondJoiner.joinerIp := by decide
  refine ⟨fun h => ?_, fun h => ?_⟩
  · have heq := (eq_iff_address ((h _).mp hzero) canonical_second).mpr hsame
    exact absurd heq (by decide)
  · exact absurd ((h _ _ hzero (queued_of_canonical canonical_second)).mpr hsame) (by decide)

end MilvusOnprem.JoinerIp
