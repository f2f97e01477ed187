import MilvusOnprem.ClusterEnv
import MilvusOnprem.Topology
import Mathlib.Data.List.Sort
import Mathlib.Order.Interval.Finset.Nat

/-!
# Handling a join request

`handle_join` as a program with a point for every place where it waits: for the
join lock, for a call to etcd, for a reading of the clock or of `cluster.env`.
The clock counts milliseconds. Logging is left out, and so is the rate at which
the wait for a healthy cluster logs.
-/
namespace MilvusOnprem.Joining

open PythonText EtcdClient MilvusOnprem.Topology ClusterEnv

structure DaemonConfig where
  nodeName : String
  localIp : String
  clusterToken : String
  etcdPeerPort : ℤ
  listenPort : ℤ
deriving DecidableEq, Repr

structure JoinResult where
  nodeName : String
  localIp : String
  clusterEnv : String
  leaderIp : String
deriving DecidableEq, Repr

/-! ## Names and orders -/

/-- One part of an address: one to three digits and at most 255. -/
def isOctet (part : List Char) : Bool :=
  part.length ≤ 3 && (parseDigits part).any fun n => n ≤ 255

/-- `_is_valid_ipv4` -/
def isValidIpv4 (ip : String) : Bool :=
  let parts := (dropFinalNewline ip.toList).splitOn '.'
  parts.length = 4 && parts.all isOctet

/-- The group of `^node-(\d+)$`, as a number. -/
def nodeSuffix (name : String) : Option ℕ :=
  if startsWith name "node-" then
    parseDigits (dropFinalNewline (removePrefix "node-" name).toList)
  else none

/-- `f"node-{n}"` -/
def nodeName (n : ℕ) : String := "node-" ++ String.ofList (JsonText.natDigits n)

/-- `while n in used: n += 1`, which ends after at most `fuel` rounds when the
fuel is the number of used suffixes. -/
def leastUnused (used : List ℕ) : ℕ → ℕ → ℕ
  | 0, n => n
  | fuel + 1, n => if n ∈ used then leastUnused used fuel (n + 1) else n

/-- `_allocate_next_name` -/
def allocateNextName (existingNames : List String) : String :=
  let used := existingNames.filterMap nodeSuffix
  nodeName (leastUnused used used.length 1)

/-- `_node_sort_key` -/
def nodeSortKey (name : String) : ℕ × String := ((nodeSuffix name).getD (10 ^ 9), name)

/-- The comparison of two sort keys. -/
def keyLe (a b : ℕ × String) : Bool := a.1 < b.1 || (a.1 = b.1 && a.2 ≤ b.2)

/-- The loop of `_ordered_peer_names_and_ips_after_join` that copies the ips that
are set; an info without the field counts as having the empty text. -/
def combinedIps : List (String × Json) → Except Exc (List (String × Json))
  | [] => .ok []
  | (name, info) :: rest => do
      let v ← infoGet "ip" info
      let ips ← combinedIps rest
      let ip := v.getD (.str "")
      .ok (if ip.truthy then (name, ip) :: ips else ips)

/-- `_ordered_peer_names_and_ips_after_join` -/
def orderedPeerNamesAndIpsAfterJoin (existingTopology : List (String × Json))
    (newName joinerIp : String) : Except Exc (List (String × Json)) := do
  let combined ← combinedIps existingTopology
  .ok ((dictSet newName (.str joinerIp) combined).insertionSort fun a b =>
    keyLe (nodeSortKey a.1) (nodeSortKey b.1) = true)

/-! ## The call -/

/-- The arguments of `handle_join` and the config of the daemon that runs it. -/
structure JoinCall where
  config : DaemonConfig
  joinerIp : String
  joinerHostname : Option String
deriving DecidableEq, Repr

/-- The points of a call: in the queue for the lock, at the condition of the
loop that waits for a healthy cluster, at one of the calls to etcd (`polling`,
`reading`, `creating`, `adding`, `rollingBack`), about to read the clock
(`stamping`) or `cluster.env` (`rejoining`, `building`), or at its end. `parsed`
is the topology as read. -/
inductive JoinPc where
  | queued
  | waiting (deadline : ℕ)
  | polling (deadline : ℕ)
  | reading
  | rejoining (name : String) (parsed : List (String × Json))
  | stamping (name : String) (parsed : List (String × Json))
  | creating (name : String) (parsed : List (String × Json)) (infoValue : String)
  | building (name : String) (parsed : List (String × Json))
  | adding (name clusterEnv : String)
  | rollingBack (name : String) (cause : Exc)
  | returned (r : JoinResult)
  | raised (e : Exc)
deriving DecidableEq

namespace JoinCall

def peerUrl (c : JoinCall) : String :=
  "http://" ++ c.joinerIp ++ ":" ++ toString c.config.etcdPeerPort

/-- The JSON text of the new topology entry. -/
def infoValue (c : JoinCall) (name : String) (now : Decimal) : String :=
  JsonText.dumps (.obj [("name", .str name), ("ip", .str c.joinerIp),
    ("hostname", (c.joinerHostname.map Json.str).getD .null), ("joined_at", .float now),
    ("role", .str "peer")])

def result (c : JoinCall) (name clusterEnv : String) : JoinResult :=
  ⟨name, c.joinerIp, clusterEnv, c.config.localIp⟩

def start (c : JoinCall) : JoinPc :=
  if isValidIpv4 c.joinerIp then .queued
  else .raised (.joinError ("invalid joiner IP: " ++ PythonText.repr c.joinerIp))

def unhealthy : Exc :=
  .joinError ("cluster did not become healthy within 180s; " ++
    "an earlier joiner's etcd may have failed to start — " ++
    "run remove-node on that peer before retrying")

/-- The call to etcd in flight. -/
def request (c : JoinCall) : JoinPc → Option Request
  | .polling _ => some .memberList
  | .reading => some (.getPrefix TOPOLOGY_PREFIX)
  | .creating name _ value => some (.putIfAbsent (TOPOLOGY_PREFIX ++ name) value)
  | .adding _ _ => some (.memberAdd [c.peerUrl])
  | .rollingBack name _ => some (.delete (TOPOLOGY_PREFIX ++ name))
  | .queued | .waiting _ | .rejoining _ _ | .stamping _ _ | .building _ _ | .returned _
  | .raised _ => none

/-- Where the call goes once the topology is read. -/
def chosen (c : JoinCall) (parsed : List (String × Json)) : JoinPc :=
  match findNodeNameByIp c.joinerIp parsed with
  | .error e => .raised e
  | .ok (some name) => .rejoining name parsed
  | .ok none => .stamping (allocateNextName (parsed.map Prod.fst)) parsed

/-- The continuation of the call in flight. An answer of another kind than the
request asks for does not occur. -/
def answered (c : JoinCall) : JoinPc → Except Exc Reply → JoinPc
  | .polling deadline, .ok (.members ms) =>
      if ms.all Member.started then .reading else .waiting deadline
  | .polling deadline, _ => .waiting deadline
  | .reading, .ok (.entries kvs) => c.chosen (parseTopology kvs)
  | .reading, .error e => .raised e
  -- whether the entry was written is only logged
  | .creating name parsed _, .ok (.succeeded _) => .building name parsed
  | .creating _ _ _, .error e => .raised e
  | .adding name clusterEnv, .ok .added => .returned (c.result name clusterEnv)
  | .adding name _, .error e => .rollingBack name e
  -- a failed rollback is only logged
  | .rollingBack _ cause, _ => .raised (.joinError ("etcd member-add failed: " ++ cause.text))
  | pc, _ => pc

def client (c : JoinCall) : Client JoinPc := ⟨c.request, c.answered⟩

/-- What a call reads outside etcd: the free lock and the monotonic clock, the
monotonic clock, the time, the file with the formatted time. -/
inductive Input where
  | acquired (now : ℕ)
  | monotonic (now : ℕ)
  | time (now : Decimal)
  | clusterEnv (file : Option String) (issuedAt : String)
deriving DecidableEq, Repr

/-- `_build_joiner_cluster_env` over the topology without the joiner's own
entry, as both branches call it. -/
def joinerEnv (c : JoinCall) (name : String) (others : List (String × Json))
    (file : Option String) (issuedAt : String) : Except Exc String := do
  let pairs ← orderedPeerNamesAndIpsAfterJoin others name c.joinerIp
  let leaderEnv ← readClusterEnv file
  buildJoinerClusterEnv leaderEnv name c.joinerIp (pairs.map Prod.snd) (pairs.map Prod.fst) issuedAt

/-- A step of the call on its own. -/
def proceed (c : JoinCall) : JoinPc → Input → Option JoinPc
  | .queued, .acquired now => some (.waiting (now + 180 * 1000))
  | .waiting deadline, .monotonic now =>
      some (if now < deadline then .polling deadline else .raised unhealthy)
  | .rejoining name parsed, .clusterEnv file issuedAt =>
      some (match c.joinerEnv name (parsed.filter fun e => e.1 ≠ name) file issuedAt with
        | .ok env => .returned (c.result name env)
        | .error e => .raised e)
  | .stamping name parsed, .time now => some (.creating name parsed (c.infoValue name now))
  | .building name parsed, .clusterEnv file issuedAt =>
      some (match c.joinerEnv name parsed file issuedAt with
        | .ok env => .adding name env
        | .error e => .raised e)
  | _, _ => none

end JoinCall

/-! ## What a step can do -/

namespace JoinCall

/-- The steps of a call on its own. -/
inductive Proceeds (c : JoinCall) : JoinPc → Input → JoinPc → Prop
  | lock (now : ℕ) : Proceeds c .queued (.acquired now) (.waiting (now + 180 * 1000))
  | poll {deadline now : ℕ} : now < deadline →
      Proceeds c (.waiting deadline) (.monotonic now) (.polling deadline)
  | timeout {deadline now : ℕ} : deadline ≤ now →
      Proceeds c (.waiting deadline) (.monotonic now) (.raised unhealthy)
  | rejoined {name parsed file issuedAt env} :
      c.joinerEnv name (parsed.filter fun e => e.1 ≠ name) file issuedAt = .ok env →
      Proceeds c (.rejoining name parsed) (.clusterEnv file issuedAt) (.returned (c.result name env))
  | rejoinFailed {name parsed file issuedAt e} :
      Proceeds c (.rejoining name parsed) (.clusterEnv file issuedAt) (.raised e)
  | stamp {name parsed now} :
      Proceeds c (.stamping name parsed) (.time now) (.creating name parsed (c.infoValue name now))
  | built {name parsed file issuedAt env} :
      c.joinerEnv name parsed file issuedAt = .ok env →
      Proceeds c (.building name parsed) (.clusterEnv file issuedAt) (.adding name env)
  | buildFailed {name parsed file issuedAt e} :
      c.joinerEnv name parsed file issuedAt = .error e →
      Proceeds c (.building name parsed) (.clusterEnv file issuedAt) (.raised e)

theorem proceeds_of_proceed {c : JoinCall} {pc qc : JoinPc} {i : Input}
    (h : c.proceed pc i = some qc) : Proceeds c pc i qc := by
  unfold proceed at h
  split at h <;> cases h
  · exact .lock _
  · split_ifs with hnow
    · exact .poll hnow
    · exact .timeout (Nat.le_of_not_lt hnow)
  · split
    · next env henv => exact .rejoined henv
    · exact .rejoinFailed
  · exact .stamp
  · split
    · next env henv => exact .built henv
    · next e he => exact .buildFailed he

/-- The attempts of a call, after `tries` failed ones of the same request: the
store before, the point, what happens to the attempt, the store after and the
next point. -/
inductive Attempts (c : JoinCall) (newId tries : ℕ) (s : Etcd) :
    JoinPc → Attempt → Etcd → JoinPc → Prop
  | again {pc r a} : c.request pc = some r →
      Attempts c newId tries s pc a (if a.reaches then (serve newId s r).1 else s) pc
  | pollFailed {deadline a} : Attempts c newId tries s (.polling deadline) a s (.waiting deadline)
  | polled {deadline} : s.members.all Member.started = true →
      Attempts c newId tries s (.polling deadline) .answered s .reading
  | unhealthy {deadline} : s.members.all Member.started = false →
      Attempts c newId tries s (.polling deadline) .answered s (.waiting deadline)
  | readFailed {a e} : Attempts c newId tries s .reading a s (.raised e)
  | read : Attempts c newId tries s .reading .answered s
      (c.chosen (parseTopology (withPrefix TOPOLOGY_PREFIX s.kv)))
  | createFailed {name parsed value a e} : a.givesUp tries = true →
      Attempts c newId tries s (.creating name parsed value) a
        (if a.reaches then (serve newId s (.putIfAbsent (TOPOLOGY_PREFIX ++ name) value)).1 else s)
        (.raised e)
  | created {name parsed value} : Attempts c newId tries s (.creating name parsed value) .answered
      (serve newId s (.putIfAbsent (TOPOLOGY_PREFIX ++ name) value)).1 (.building name parsed)
  | addFailed {name env a e} : Attempts c newId tries s (.adding name env) a
      (if a.reaches then (serve newId s (.memberAdd [c.peerUrl])).1 else s) (.rollingBack name e)
  | added {name env} : hasURL s.members c.peerUrl = false →
      Attempts c newId tries s (.adding name env) .answered
        ⟨s.kv, s.members ++ [⟨newId, "", [c.peerUrl]⟩]⟩ (.returned (c.result name env))
  | rolledBack {name cause a} : a = .answered ∨ a.givesUp tries = true →
      Attempts c newId tries s (.rollingBack name cause) a
        (if a.reaches then (serve newId s (.delete (TOPOLOGY_PREFIX ++ name))).1 else s)
        (.raised (.joinError ("etcd member-add failed: " ++ cause.text)))

theorem attempts_of_attempt {c : JoinCall} {newId : ℕ} {s u : Etcd} {t v : Thread JoinPc}
    {a : Attempt} (h : c.client.attempt newId s t a = some (u, v)) :
    Attempts c newId t.tries s t.pc a u v.pc := by
  obtain ⟨pc, tries⟩ := t
  obtain ⟨qc, tries'⟩ := v
  obtain ⟨r, hr, hu, hnext⟩ := Client.attempt_cases c.client h
  subst hu
  rcases hnext with hsame | ⟨e, he, hwhy⟩ | ⟨y, ha, hy, hv⟩
  · cases hsame
    exact .again hr
  · cases he
    cases pc with
    | polling deadline =>
        cases hr
        simpa [serve] using Attempts.pollFailed
    | reading =>
        cases hr
        simpa [serve] using Attempts.readFailed
    | creating name parsed value =>
        cases hr
        refine .createFailed ?_
        rcases hwhy with hup | ⟨-, text, htext⟩
        · exact hup
        · simp only [serve] at htext
          split at htext <;> cases htext
    | adding name env =>
        cases hr
        exact .addFailed
    | rollingBack name cause =>
        cases hr
        exact .rolledBack (hwhy.symm.imp_left And.left)
    | _ => cases hr
  · cases ha
    cases hv
    cases pc with
    | polling deadline =>
        cases hr
        cases hy
        change c.Attempts newId tries s (.polling deadline) .answered s
          (if s.members.all Member.started then .reading else .waiting deadline)
        split_ifs with hall
        · exact .polled hall
        · exact .unhealthy (by simpa using hall)
    | reading =>
        cases hr
        cases hy
        exact .read
    | creating name parsed value =>
        cases hr
        have hy' : ∃ b, y = .succeeded b := by
          simp only [serve] at hy
          split at hy <;> cases hy <;> exact ⟨_, rfl⟩
        obtain ⟨b, hb⟩ := hy'
        subst hb
        exact .created
    | adding name env =>
        cases hr
        change c.Attempts newId tries s (.adding name env) .answered
          (serve newId s (.memberAdd [c.peerUrl])).1 _
        simp only [serve, List.any_cons, List.any_nil, Bool.or_false] at hy ⊢
        by_cases hany : hasURL s.members c.peerUrl = true
        · rw [if_pos hany] at hy
          cases hy
        · rw [if_neg hany] at hy ⊢
          cases hy
          exact .added (by simpa using hany)
    | rollingBack name cause =>
        cases hr
        exact .rolledBack (.inl rfl)
    | _ => cases hr

end JoinCall

/-- Once the topology is read, the call ends, re-joins under a name whose entry
has its ip, or takes a name while no entry has its ip. -/
theorem JoinCall.chosen_cases (c : JoinCall) (parsed : List (String × Json)) :
    (∃ e, c.chosen parsed = .raised e) ∨
      (∃ name, findNodeNameByIp c.joinerIp parsed = .ok (some name) ∧
        c.chosen parsed = .rejoining name parsed) ∨
      (findNodeNameByIp c.joinerIp parsed = .ok none ∧
        c.chosen parsed = .stamping (allocateNextName (parsed.map Prod.fst)) parsed) := by
  unfold chosen
  split
  · next e _ => exact .inl ⟨e, rfl⟩
  · next name h => exact .inr (.inl ⟨name, h, rfl⟩)
  · next h => exact .inr (.inr ⟨h, rfl⟩)

theorem JoinCall.chosen_ne_returned (c : JoinCall) (parsed : List (String × Json))
    (r : JoinResult) : c.chosen parsed ≠ .returned r := by
  intro h
  rcases c.chosen_cases parsed with ⟨e, he⟩ | ⟨name, -, he⟩ | ⟨-, he⟩
  all_goals
    rw [he] at h
    cases h

theorem combinedIps_ok {parsed : List (String × Json)}
    (h : ∀ e ∈ parsed, ∃ ip, ipOf e.2 = some ip) :
    ∃ ips, combinedIps parsed = .ok ips ∧ ∀ e ∈ ips, ∃ s, e.2 = .str s := by
  induction parsed with
  | nil => exact ⟨[], rfl, fun e he => by cases he⟩
  | cons x xs ih =>
      obtain ⟨name, info⟩ := x
      obtain ⟨ip, hip⟩ := h (name, info) List.mem_cons_self
      obtain ⟨ips, hips, hstr⟩ := ih fun e he => h e (List.mem_cons_of_mem _ he)
      refine ⟨if (Json.str ip).truthy then (name, .str ip) :: ips else ips, ?_, ?_⟩
      · simp only [combinedIps, infoGet_ip_of_ipOf hip, hips, bind, Except.bind, Option.getD_some]
      · intro e he
        split_ifs at he
        · rcases List.mem_cons.mp he with he | he
          · exact ⟨ip, by rw [he]⟩
          · exact hstr e he
        · exact hstr e he

/-- The joiner's `cluster.env` can be built from a readable file and a topology
whose ips are texts. -/
theorem JoinCall.joinerEnv_ok (c : JoinCall) (name : String) {parsed : List (String × Json)}
    (h : ∀ e ∈ parsed, ∃ ip, ipOf e.2 = some ip) (text issuedAt : String) :
    ∃ env, c.joinerEnv name parsed (some text) issuedAt = .ok env := by
  obtain ⟨ips, hips, hstr⟩ := combinedIps_ok h
  have hmem : ∀ e, e ∈ (dictSet name (.str c.joinerIp) ips).insertionSort
      (fun a b => keyLe (nodeSortKey a.1) (nodeSortKey b.1) = true) ↔
      e ∈ dictSet name (.str c.joinerIp) ips := fun e => List.mem_insertionSort _
  obtain ⟨env, henv⟩ := buildJoinerClusterEnv_ok (parseClusterEnv text) issuedAt
    ((hmem _).mpr (mem_dictSet_self name (.str c.joinerIp) ips)) (by
      intro e he
      rcases mem_dictSet ((hmem e).mp he) with he | he
      · exact ⟨c.joinerIp, by rw [he]⟩
      · exact hstr e he)
  refine ⟨env, ?_⟩
  simp only [joinerEnv, orderedPeerNamesAndIpsAfterJoin, hips, readClusterEnv, bind, Except.bind]
  exact henv

/-- The new entry carries the joiner's ip. -/
theorem JoinCall.textIp_infoValue (c : JoinCall) (name : String) (now : Decimal) :
    textIp (c.infoValue name now) = some c.joinerIp := by
  simp [textIp, infoValue, ipOf, Json.field]

/-! ## The allocated name -/

theorem leastUnused_notMem {used : List ℕ} : leastUnused used used.length 1 ∉ used := by
  have hrun : ∀ fuel n, leastUnused used fuel n ∈ used →
      ∀ k, n ≤ k → k ≤ n + fuel → k ∈ used := by
    intro fuel
    induction fuel with
    | zero =>
        intro n h k hk hk'
        have hkn : k = n := by omega
        exact hkn ▸ h
    | succ fuel ih =>
        intro n h k hk hk'
        unfold leastUnused at h
        split_ifs at h with hn
        · rcases Nat.eq_or_lt_of_le hk with hk | hk
          · exact hk ▸ hn
          · exact ih (n + 1) h k hk (by omega)
        · exact absurd h hn
  intro h
  have hall := hrun used.length 1 h
  have hsub : Finset.Icc 1 (1 + used.length) ⊆ used.toFinset := by
    intro k hk
    obtain ⟨h₁, h₂⟩ := Finset.mem_Icc.mp hk
    exact List.mem_toFinset.mpr (hall k h₁ h₂)
  have hcard := Finset.card_le_card hsub
  have hlen := used.toFinset_card_le
  rw [Nat.card_Icc] at hcard
  omega

theorem decimalDigit_of_isDigit {c : Char} (h : JsonText.isDigit c = true) :
    decimalDigit c = some (JsonText.digitValue c) := by
  simp only [JsonText.isDigit, Bool.and_eq_true, decide_eq_true_eq] at h
  have hlt : c.toNat < 48 + 10 := by omega
  simp only [decimalDigit, decimalZeros, List.findSome?_cons, h.1, hlt, and_self, if_true]
  rfl

theorem parseDigits_digits {ds : List Char} (hne : ds ≠ []) (h : JsonText.Digits ds) :
    parseDigits ds = some (JsonText.digitsValue ds) := by
  have hfold : ∀ (ds : List Char) (m : ℕ), JsonText.Digits ds →
      ds.foldlM (fun n c => (decimalDigit c).map fun d => 10 * n + d) m =
        some (ds.foldl (fun n c => 10 * n + JsonText.digitValue c) m) := by
    intro ds
    induction ds with
    | nil =>
        intro m _
        rfl
    | cons d ds ih =>
        intro m h
        have hd := decimalDigit_of_isDigit (h d List.mem_cons_self)
        rw [List.foldlM_cons, hd, List.foldl_cons]
        exact ih _ fun c hc => h c (List.mem_cons_of_mem _ hc)
  rw [parseDigits, if_neg hne, hfold _ _ h]
  rfl

theorem parseDigits_natDigits (n : ℕ) : parseDigits (JsonText.natDigits n) = some n := by
  obtain ⟨c, cs, hc, -⟩ := JsonText.natDigits_cons n
  have hne : JsonText.natDigits n ≠ [] := by
    rw [hc]
    exact List.cons_ne_nil c cs
  rw [parseDigits_digits hne (JsonText.natDigits_digits n), JsonText.natDigits_value]

theorem nodeSuffix_nodeName (n : ℕ) : nodeSuffix (nodeName n) = some n := by
  have hlast : (JsonText.natDigits n).getLast? ≠ some '\n' := by
    intro h
    have hd := JsonText.natDigits_digits n _ (List.mem_of_getLast? h)
    exact absurd hd (by decide)
  rw [nodeSuffix, nodeName, startsWith_append, if_pos rfl, removePrefix_append,
    String.toList_ofList, dropFinalNewline, if_neg hlast, parseDigits_natDigits]

/-- The allocated name is none of the names read. -/
theorem allocateNextName_notMem (names : List String) : allocateNextName names ∉ names := by
  intro h
  have hused := List.mem_filterMap.mpr ⟨_, h, nodeSuffix_nodeName _⟩
  exact leastUnused_notMem hused

/-! ## A small cluster -/

def bootConfig : DaemonConfig := ⟨"node-1", "10.0.0.1", "token", 2380, 19500⟩

/-- A cluster of one registered peer. -/
def oneMember : Etcd :=
  ⟨OrderedMap.empty.put (TOPOLOGY_PREFIX ++ "node-1")
      (JsonText.dumps (.obj [("name", .str "node-1"), ("ip", .str "10.0.0.1")])),
    [⟨1, "node-1", ["http://10.0.0.1:2380"]⟩]⟩

end MilvusOnprem.Joining
