import MilvusOnprem.PoolAgreement
import MilvusOnprem.OrderedPeers
import MilvusOnprem.TopologyWatcher
import MilvusOnprem.Cluster

/-!
# The order of the pools over joins and removals

In the layout of one pool per host, every peer's MinIO is one argument of the
server command, in the order of the node numbers. A join takes the smallest free
number, so its pool is the last one only when no number is free below another.

Joins and removals are whole here: each is one step on the store, with the name
it chooses and the entry it writes or deletes.
-/
namespace MilvusOnprem.PoolOrder

open PythonText EtcdClient MilvusOnprem.Topology Joining RemoveNode MinioRender OrderedPeers TopologyWatcher
  GuardedRuns PoolAgreement ClusterEnv

/-- An IPv4 address. The pattern of `_is_valid_ipv4` also takes one that is
followed by a newline. -/
def isAddress (ip : String) : Bool := isValidIpv4 ip && '\n' ∉ ip.toList

abbrev Store := OrderedMap String String

/-- The topology as a request reads it. -/
def parsed (kv : Store) : List (String × Json) := parseTopology (withPrefix TOPOLOGY_PREFIX kv)

inductive Act where
  | join (c : JoinCall) (now : Decimal)
  | remove (ip : String)

def step (kv : Store) : Act → Option Store
  | .join c now =>
      if isAddress c.joinerIp then
        match c.chosen (parsed kv) with
        | .stamping name _ =>
            some (serve 0 ⟨kv, []⟩ (.putIfAbsent (TOPOLOGY_PREFIX ++ name) (c.infoValue name now))).1.kv
        -- the peer has an entry: the topology stays as it is
        | .rejoining _ _ => some kv
        | _ => none
      else none
  | .remove ip =>
      match resolve ip (parsed kv) with
      | .guarding name => some (kv.erase (TOPOLOGY_PREFIX ++ name))
      | _ => none

/-- A store in which only the bootstrap peer is registered. -/
def Bootstrapped (kv : Store) : Prop :=
  ∃ (config : DaemonConfig) (now : Decimal) (kv₀ : Store),
    config.nodeName = "node-1" ∧ isAddress config.localIp = true ∧
      (∀ name, kv₀.get (TOPOLOGY_PREFIX ++ name) = none) ∧
      kv = kv₀.put (Cluster.registerKey config) (Cluster.registerInfo config now)

/-- The pools that are rendered once every daemon has seen the topology. -/
def poolsOf (s : Settings) (kv : Store) : Option (List String) :=
  match sortedPeers (contents kv).entries with
  | .error _ => none
  | .ok peers =>
      let e := s.toEnv.withPeers peers
      (roleDetect e).map fun arrays => poolArguments (minioVolumes e arrays)

/-- No node number is free below a used one. -/
def NoGap (kv : Store) : Prop :=
  ∀ m n, 1 ≤ m → m < n → (entryOf kv (nodeName n)).isSome → (entryOf kv (nodeName m)).isSome

/-! ## Addresses -/

theorem dotted_of_isAddress {ip : String} (h : isAddress ip = true) :
    ∀ c ∈ ip.toList, c = '.' ∨ (decimalDigit c).isSome = true := by
  simp only [isAddress, isValidIpv4, Bool.and_eq_true, decide_eq_true_eq, List.all_eq_true] at h
  obtain ⟨⟨-, hparts⟩, hline⟩ := h
  have hdrop : dropFinalNewline ip.toList = ip.toList := by
    rw [dropFinalNewline, if_neg fun hl => hline (List.mem_of_getLast? hl)]
  rw [hdrop] at hparts
  intro c hc
  by_cases hdot : c = '.'
  · exact .inl hdot
  · right
    obtain ⟨part, hpart, hmem⟩ := exists_part_of_mem hc hdot
    have hoctet := hparts part hpart
    simp only [isOctet, Bool.and_eq_true] at hoctet
    obtain ⟨n, hn, -⟩ := (Option.any_eq_true _ _).mp hoctet.2
    exact parseDigits_chars hn c hmem

theorem ne_empty_of_isAddress {ip : String} (h : isAddress ip = true) : ip ≠ "" := by
  rintro rfl
  exact absurd h (by decide)

/-! ## What the store holds -/

/-- Every entry is a numbered node with an address. -/
def Registered (kv : Store) : Prop :=
  ∀ name value, kv.get (TOPOLOGY_PREFIX ++ name) = some value →
    ∃ n ip, 1 ≤ n ∧ name = nodeName n ∧ isAddress ip = true ∧ textIp value = some ip

def Inhabited (kv : Store) : Prop := ∃ name value, kv.get (TOPOLOGY_PREFIX ++ name) = some value

theorem Registered.put {kv : Store} (h : Registered kv) {n : ℕ} (hn : 1 ≤ n) {value ip : String}
    (hip : isAddress ip = true) (hvalue : textIp value = some ip) :
    Registered (kv.put (TOPOLOGY_PREFIX ++ nodeName n) value) := by
  intro name v hv
  rw [OrderedMap.get_put] at hv
  split_ifs at hv with hname
  · obtain rfl := Option.some.inj hv
    exact ⟨n, ip, hn, (append_left_injective hname).symm, hip, hvalue⟩
  · exact h name v hv

theorem Registered.erase {kv : Store} (h : Registered kv) (key : String) :
    Registered (kv.erase key) := by
  intro name v hv
  rw [OrderedMap.get_erase] at hv
  split_ifs at hv
  exact h name v hv

theorem Inhabited.put (kv : Store) (name value : String) :
    Inhabited (kv.put (TOPOLOGY_PREFIX ++ name) value) :=
  ⟨name, value, OrderedMap.get_put_self kv _ _⟩

theorem le_leastUnused (used : List ℕ) (fuel n : ℕ) : n ≤ leastUnused used fuel n := by
  induction fuel generalizing n with
  | zero => exact le_rfl
  | succ fuel ih =>
      unfold leastUnused
      split_ifs
      · exact (Nat.le_succ n).trans (ih (n + 1))
      · exact le_rfl

/-- Every number below the chosen one is used. -/
theorem used_of_lt_leastUnused {used : List ℕ} {fuel n m : ℕ} (hn : n ≤ m)
    (hm : m < leastUnused used fuel n) : m ∈ used := by
  induction fuel generalizing n with
  | zero => exact absurd hm (Nat.not_lt.mpr hn)
  | succ fuel ih =>
      unfold leastUnused at hm
      split_ifs at hm with hused
      · rcases Nat.eq_or_lt_of_le hn with he | hlt
        · exact he ▸ hused
        · exact ih hlt hm
      · omega

/-- The number a join takes. -/
def nextNumber (kv : Store) : ℕ :=
  let used := ((parsed kv).map Prod.fst).filterMap nodeSuffix
  leastUnused used used.length 1

theorem mem_parsed {kv : Store} {name : String} {info : Json} :
    (name, info) ∈ parsed kv ↔ entryOf kv name = some info := mem_parseTopology

/-- What a step of the history does to the store. -/
theorem step_cases {kv kv' : Store} {act : Act} (h : step kv act = some kv') :
    (∃ c now, act = .join c now ∧ isAddress c.joinerIp = true ∧
      findNodeNameByIp c.joinerIp (parsed kv) = .ok none ∧
      kv' = (serve 0 ⟨kv, []⟩ (.putIfAbsent (TOPOLOGY_PREFIX ++ nodeName (nextNumber kv))
        (c.infoValue (nodeName (nextNumber kv)) now))).1.kv) ∨
    (∃ c now name, act = .join c now ∧
      findNodeNameByIp c.joinerIp (parsed kv) = .ok (some name) ∧ kv' = kv) ∨
    (∃ ip name, act = .remove ip ∧ 1 < (parsed kv).length ∧
      kv' = kv.erase (TOPOLOGY_PREFIX ++ name)) := by
  cases act with
  | join c now =>
      simp only [step] at h
      split_ifs at h with haddr
      rcases c.chosen_cases (parsed kv) with ⟨e, he⟩ | ⟨name, hfind, he⟩ | ⟨hfind, he⟩
      · rw [he] at h
        cases h
      · rw [he] at h
        exact .inr (.inl ⟨c, now, name, rfl, hfind, (Option.some.inj h).symm⟩)
      · rw [he] at h
        exact .inl ⟨c, now, rfl, haddr, hfind, (Option.some.inj h).symm⟩
  | remove ip =>
      simp only [step] at h
      rcases resolve_cases ip (parsed kv) with ⟨e, he⟩ | ⟨name, hfind, he⟩
      · rw [he] at h
        cases h
      · rw [he] at h
        refine .inr (.inr ⟨ip, name, rfl, ?_, (Option.some.inj h).symm⟩)
        by_contra hlen
        rw [resolve, hfind] at he
        dsimp only at he
        rw [if_pos (by omega)] at he
        cases he

structure Sound (kv : Store) : Prop where
  registered : Registered kv
  inhabited : Inhabited kv

theorem sound_step {kv kv' : Store} {act : Act} (h : Sound kv) (hs : step kv act = some kv') :
    Sound kv' := by
  rcases step_cases hs with ⟨c, now, -, haddr, -, rfl⟩ | ⟨c, now, name, -, -, rfl⟩ |
    ⟨ip, name, -, hlen, rfl⟩
  · rw [serve_putIfAbsent]
    split_ifs
    · constructor
      · exact h.registered.put (le_leastUnused _ _ 1) haddr (c.textIp_infoValue _ now)
      · exact Inhabited.put kv _ _
    · exact h
  · exact h
  · refine ⟨h.registered.erase _, ?_⟩
    obtain ⟨e, he, hne⟩ := exists_other_name (parseTopology_pairwise kv) hlen name
    have hentry := mem_parsed.mp (show (e.1, e.2) ∈ parsed kv from he)
    obtain ⟨value, hvalue, -⟩ := Option.bind_eq_some_iff.mp hentry
    refine ⟨e.1, value, ?_⟩
    rw [OrderedMap.get_erase_of_ne kv fun hk => hne (append_left_injective hk).symm]
    exact hvalue

theorem sound_bootstrapped {kv : Store} (h : Bootstrapped kv) : Sound kv := by
  obtain ⟨config, now, kv₀, hname, haddr, hempty, rfl⟩ := h
  have hreg₀ : Registered kv₀ := fun name value hv => by
    rw [hempty name] at hv
    cases hv
  have hkey : Cluster.registerKey config = TOPOLOGY_PREFIX ++ nodeName 1 := by
    rw [Cluster.registerKey, hname]
    rfl
  have hvalue : textIp (Cluster.registerInfo config now) = some config.localIp := by
    simp [textIp, Cluster.registerInfo, ipOf, Json.field]
  rw [hkey]
  exact ⟨hreg₀.put le_rfl haddr hvalue, Inhabited.put kv₀ _ _⟩

/-! ## The rendered list -/

theorem Sound.peerIp {kv : Store} (h : Sound kv) {name : String} {info : Json}
    (he : entryOf kv name = some info) :
    ∃ n ip, 1 ≤ n ∧ name = nodeName n ∧ isAddress ip = true ∧ ipOf info = some ip := by
  obtain ⟨value, hvalue, hinfo⟩ := Option.bind_eq_some_iff.mp he
  obtain ⟨n, ip, hn, hname, haddr, htext⟩ := h.registered name value hvalue
  refine ⟨n, ip, hn, hname, haddr, ?_⟩
  rwa [textIp, hinfo, Option.bind_some] at htext

/-- The peers in order, with the addresses of their entries. -/
theorem Sound.peers {kv : Store} (h : Sound kv) :
    ∃ peers, sortedPeers (contents kv).entries = .ok peers ∧ peers.Pairwise Before ∧
      ∀ name ip, (name, ip) ∈ peers ↔ Topology.peerIp kv name = some ip := by
  have hmem : ∀ {name info}, (name, info) ∈ (contents kv).entries ↔ entryOf kv name = some info := by
    intro name info
    rw [OrderedMap.mem_entries, get_contents]
  have hobj : ∀ e ∈ (contents kv).entries, ∃ fields, e.2 = .obj fields := by
    intro e he
    obtain ⟨n, ip, -, -, haddr, hip⟩ := h.peerIp (hmem.mp he)
    exact (usedIp_of_ipOf hip (ne_empty_of_isAddress haddr)).2
  obtain ⟨peers, hpeers⟩ := sortedPeers_objects hobj
  refine ⟨peers, hpeers, ?_, fun name ip => ?_⟩
  · exact sortedPeers_pairwise ((contents kv).sorted.imp fun hlt => hlt.ne) hpeers
  · rw [mem_sortedPeers hpeers]
    constructor
    · rintro ⟨info, hinfo, hip⟩
      obtain ⟨n, ip', -, -, haddr, hip'⟩ := h.peerIp (hmem.mp hinfo)
      rw [(usedIp_of_ipOf hip' (ne_empty_of_isAddress haddr)).1, Option.some.injEq] at hip
      rw [Topology.peerIp, hmem.mp hinfo, Option.bind_some, hip', hip]
    · intro hip
      obtain ⟨info, hinfo, hip'⟩ := Option.bind_eq_some_iff.mp hip
      obtain ⟨n, ip', -, -, haddr, hip''⟩ := h.peerIp hinfo
      rw [hip', Option.some.injEq] at hip''
      exact ⟨info, hmem.mpr hinfo, (usedIp_of_ipOf hip' (hip'' ▸ ne_empty_of_isAddress haddr)).1⟩

theorem Sound.numbered {kv : Store} (h : Sound kv) {name ip : String}
    (hip : Topology.peerIp kv name = some ip) :
    ∃ n, 1 ≤ n ∧ name = nodeName n ∧ isAddress ip = true := by
  obtain ⟨info, hinfo, hip'⟩ := Option.bind_eq_some_iff.mp hip
  obtain ⟨n, ip', hn, hname, haddr, hip''⟩ := h.peerIp hinfo
  rw [hip', Option.some.injEq] at hip''
  exact ⟨n, hn, hname, hip'' ▸ haddr⟩

theorem isField_address {ip : String} (h : isAddress ip = true) : IsField ip :=
  ⟨ne_empty_of_isAddress h, notMem_of_dotted (dotted_of_isAddress h) (by decide) (by decide),
    notMem_of_dotted (dotted_of_isAddress h) (by decide) (by decide)⟩

theorem isField_nodeName (n : ℕ) : IsField (nodeName n) := by
  have hdigits : ∀ x : Char, JsonText.isDigit x = false → x ∉ JsonText.natDigits n := by
    intro x hx hm
    rw [JsonText.natDigits_digits n x hm] at hx
    cases hx
  have hcomma := hdigits ',' (by decide)
  have hline := hdigits '\n' (by decide)
  refine ⟨?_, ?_, ?_⟩
  · intro h
    exact absurd (congrArg String.toList h) (by simp [nodeName])
  · simpa [nodeName] using hcomma
  · simpa [nodeName] using hline

/-- The rendered pools are the arguments of the peers, in their order. -/
theorem Sound.poolsOf {kv : Store} (h : Sound kv) (s : Settings)
    (hs : s.MINIO_HA_POOL_SIZE = none) {peers : List (String × String)}
    (hpeers : sortedPeers (contents kv).entries = .ok peers)
    (hmem : ∀ name ip, (name, ip) ∈ peers ↔ Topology.peerIp kv name = some ip) :
    poolsOf s kv = some (peers.map fun p => poolArg s.apiPort s.drivesPerNode p.2) := by
  have haddr : ∀ p ∈ peers, isAddress p.2 = true ∧ IsField p.1 := by
    intro p hp
    obtain ⟨n, -, hname, haddr⟩ := h.numbered ((hmem p.1 p.2).mp hp)
    exact ⟨haddr, hname ▸ isField_nodeName n⟩
  have hne : peers ≠ [] := by
    obtain ⟨name, value, hvalue⟩ := h.inhabited
    obtain ⟨n, ip, -, -, -, htext⟩ := h.registered name value hvalue
    have hip : Topology.peerIp kv name = some ip := by
      rw [Topology.peerIp, entryOf, hvalue]
      exact htext
    exact List.ne_nil_of_mem ((hmem name ip).mpr hip)
  have hsize : (s.toEnv.withPeers peers).haSize = none := by
    simp only [Env.haSize, Env.withPeers, hs]
    decide
  unfold PoolOrder.poolsOf
  rw [hpeers]
  dsimp only
  rw [roleDetect_withPeers s.toEnv hne fun p hp => ⟨(haddr p hp).2, isField_address (haddr p hp).1⟩,
    Option.map_some, poolArguments_legacy (by simpa using hne) hsize]
  · rw [List.map_map]
    rfl
  · intro ip hip
    obtain ⟨p, hp, rfl⟩ := List.mem_map.mp hip
    apply s.poolArg_noBlank
    exact notMem_of_dotted (dotted_of_isAddress (haddr p hp).1) (by decide) (by decide)

/-! ## The number a join takes -/

theorem nodeName_injective : Function.Injective nodeName := by
  intro m n h
  have hsuffix := congrArg nodeSuffix h
  rwa [nodeSuffix_nodeName, nodeSuffix_nodeName, Option.some.injEq] at hsuffix

theorem before_nodeName {V : Type} {m n : ℕ} {v w : V} :
    Before (nodeName m, v) (nodeName n, w) ↔ m < n := by
  have hkey : ∀ k, (nodeSortKey (nodeName k)).1 = k := fun k => by
    rw [nodeSortKey, nodeSuffix_nodeName, Option.getD_some]
  simp only [Before, keyLe_iff, hkey, ne_eq, nodeName_injective.eq_iff]
  constructor
  · rintro ⟨hlt | ⟨heq, -⟩, hne⟩
    · exact hlt
    · exact absurd heq hne
  · intro hlt
    exact ⟨.inl hlt, hlt.ne⟩

theorem Sound.mem_used {kv : Store} (h : Sound kv) {m : ℕ} :
    m ∈ ((parsed kv).map Prod.fst).filterMap nodeSuffix ↔ (entryOf kv (nodeName m)).isSome := by
  rw [List.mem_filterMap, Option.isSome_iff_exists]
  constructor
  · rintro ⟨name, hname, hm⟩
    obtain ⟨⟨name', info⟩, he, rfl⟩ := List.mem_map.mp hname
    have hentry := mem_parsed.mp he
    obtain ⟨n, ip, -, hn, -, -⟩ := h.peerIp hentry
    rw [hn, nodeSuffix_nodeName, Option.some.injEq] at hm
    exact ⟨info, by rw [← hm, ← hn]; exact hentry⟩
  · rintro ⟨info, hinfo⟩
    exact ⟨nodeName m, List.mem_map.mpr ⟨_, mem_parsed.mpr hinfo, rfl⟩, nodeSuffix_nodeName m⟩

theorem Sound.next_free {kv : Store} (h : Sound kv) :
    kv.get (TOPOLOGY_PREFIX ++ nodeName (nextNumber kv)) = none := by
  rw [Option.eq_none_iff_forall_ne_some]
  intro value hvalue
  obtain ⟨n, ip, -, -, -, htext⟩ := h.registered _ value hvalue
  obtain ⟨info, hinfo, -⟩ := Option.bind_eq_some_iff.mp htext
  have hentry : entryOf kv (nodeName (nextNumber kv)) = some info := by
    rw [entryOf, hvalue]
    exact hinfo
  apply allocateNextName_notMem ((parsed kv).map Prod.fst)
  exact List.mem_map_of_mem (f := Prod.fst) (mem_parsed.mpr hentry)

/-- Without a gap, and only then, the next number is above every used one. -/
theorem Sound.noGap_iff {kv : Store} (h : Sound kv) :
    NoGap kv ↔ ∀ n, (entryOf kv (nodeName n)).isSome → n < nextNumber kv := by
  constructor
  · intro hgap n hn
    by_contra hle
    have hnext := hgap (nextNumber kv) n (le_leastUnused _ _ 1)
    rcases Nat.eq_or_lt_of_le (Nat.not_lt.mp hle) with he | hlt
    · rw [← he, entryOf, h.next_free] at hn
      cases hn
    · have hsome := hnext hlt hn
      rw [entryOf, h.next_free] at hsome
      cases hsome
  · intro hall m n hm hmn hn
    exact h.mem_used.mp (used_of_lt_leastUnused hm (hmn.trans (hall n hn)))

theorem peerIp_isSome {kv : Store} (h : Sound kv) {name : String} {info : Json}
    (he : entryOf kv name = some info) : ∃ ip, Topology.peerIp kv name = some ip := by
  obtain ⟨n, ip, -, -, -, hip⟩ := h.peerIp he
  exact ⟨ip, by rw [Topology.peerIp, he, Option.bind_some, hip]⟩

/-- A new peer's join gives the next number to its address. -/
theorem Sound.join_peerIp {kv kv' : Store} (hsound : Sound kv) {c : JoinCall} {now : Decimal}
    (hnew : findNodeNameByIp c.joinerIp (parsed kv) = .ok none)
    (h : step kv (.join c now) = some kv') (name : String) :
    Topology.peerIp kv' name =
      if nodeName (nextNumber kv) = name then some c.joinerIp else Topology.peerIp kv name := by
  rcases step_cases h with ⟨c', now', hact, -, -, rfl⟩ | ⟨c', now', name, hact, hfind, -⟩ |
    ⟨ip, name, hact, -, -⟩
  · cases hact
    rw [serve_putIfAbsent, if_pos hsound.next_free, peerIp_put, c.textIp_infoValue]
  · cases hact
    rw [hnew] at hfind
    cases hfind
  · cases hact

theorem poolArg_host_inj {port drives host host' : String} :
    poolArg port drives host = poolArg port drives host' ↔ host = host' := by
  constructor
  · intro h
    have hl := congrArg String.toList h
    rw [toList_poolArg, toList_poolArg, List.append_cancel_right_eq, List.append_cancel_left_eq] at hl
    exact String.toList_injective hl
  · rintro rfl
    rfl

theorem dictSet_of_notMem {V : Type} {k : String} (v : V) {es : List (String × V)}
    (h : ∀ e ∈ es, e.1 ≠ k) : dictSet k v es = es ++ [(k, v)] := by
  induction es with
  | nil => rfl
  | cons e es ih =>
      rw [dictSet, if_neg (h e List.mem_cons_self), ih fun x hx => h x (List.mem_cons_of_mem _ hx)]
      rfl

/-- A new peer's join appends its pool to the rendered ones exactly when no node
number is free below a used one. -/
theorem join_appends_iff (s : Settings) (hs : s.MINIO_HA_POOL_SIZE = none) {kv kv' : Store}
    (hreach : Reachable step Bootstrapped kv) {c : JoinCall} {now : Decimal}
    (hnew : findNodeNameByIp c.joinerIp (parsed kv) = .ok none)
    (h : step kv (.join c now) = some kv') :
    (∃ before, poolsOf s kv = some before ∧
      poolsOf s kv' = some (before ++ [poolArg s.apiPort s.drivesPerNode c.joinerIp])) ↔ NoGap kv := by
  have hsound : Sound kv := hreach.invariant (fun _ => sound_bootstrapped)
    fun _ _ _ hk hstep => sound_step hk hstep
  have hsound' : Sound kv' := sound_step hsound h
  have hips := hsound.join_peerIp hnew h
  have hfresh : ∀ name, Topology.peerIp kv name ≠ some c.joinerIp := by
    intro name hip
    obtain ⟨info, hinfo, hip'⟩ := Option.bind_eq_some_iff.mp hip
    exact (findNodeNameByIp_none hnew _ (mem_parsed.mpr hinfo)).2 hip'
  obtain ⟨peers, hpeers, hsorted, hmem⟩ := hsound.peers
  obtain ⟨peers', hpeers', hsorted', hmem'⟩ := hsound'.peers
  rw [hsound.poolsOf s hs hpeers hmem, hsound'.poolsOf s hs hpeers' hmem', hsound.noGap_iff]
  constructor
  · rintro ⟨before, hbefore, hafter⟩ n hn
    obtain rfl := Option.some.inj hbefore
    obtain ⟨front, back, hfront, -, hback⟩ := List.map_eq_append_iff.mp (Option.some.inj hafter)
    obtain ⟨last, rfl, hlast⟩ := List.map_eq_singleton_iff.mp hback
    have hlastIp : last.2 = c.joinerIp := poolArg_host_inj.mp hlast
    -- the last peer is the joiner
    have hlastName : nodeName (nextNumber kv) = last.1 := by
      by_contra hne
      have hip := (hmem' last.1 last.2).mp (hfront ▸ List.mem_append_right front List.mem_cons_self)
      rw [hips, if_neg hne, hlastIp] at hip
      exact hfresh last.1 hip
    obtain ⟨info, hinfo⟩ := Option.isSome_iff_exists.mp hn
    obtain ⟨ip, hip⟩ := peerIp_isSome hsound hinfo
    have hother : nodeName (nextNumber kv) ≠ nodeName n := by
      intro he
      rw [← he, peerIp_of_get_none hsound.next_free] at hip
      cases hip
    have hin : (nodeName n, ip) ∈ peers' := by
      rw [hmem', hips, if_neg hother, hip]
    rw [hfront] at hin hsorted'
    have hbefore : Before (nodeName n, ip) last := by
      rcases List.mem_append.mp hin with hin | hin
      · exact (List.pairwise_append.mp hsorted').2.2 _ hin _ List.mem_cons_self
      · exact absurd (hlastName.trans (congrArg Prod.fst (List.mem_singleton.mp hin)).symm) hother
    have hlast' : last = (nodeName (nextNumber kv), last.2) := Prod.ext hlastName.symm rfl
    rw [hlast'] at hbefore
    exact before_nodeName.mp hbefore
  · intro hall
    refine ⟨_, rfl, ?_⟩
    have happend : peers' = peers ++ [(nodeName (nextNumber kv), c.joinerIp)] := by
      apply eq_of_before hsorted'
      · rw [List.pairwise_append]
        refine ⟨hsorted, List.pairwise_singleton _ _, fun p hp q hq => ?_⟩
        rw [List.mem_singleton.mp hq]
        obtain ⟨n, hn, hname, -⟩ := hsound.numbered ((hmem p.1 p.2).mp hp)
        obtain ⟨info, hinfo, -⟩ := Option.bind_eq_some_iff.mp ((hmem p.1 p.2).mp hp)
        have hlt := hall n (by rw [← hname, hinfo]; rfl)
        have hp' : p = (nodeName n, p.2) := Prod.ext hname rfl
        rw [hp']
        exact before_nodeName.mpr hlt
      · rintro ⟨name, ip⟩
        rw [hmem', hips, List.mem_append, List.mem_singleton, hmem, Prod.mk.injEq]
        split_ifs with hname
        · rw [← hname, peerIp_of_get_none hsound.next_free, Option.some.injEq]
          simp [eq_comm]
        · simp [Ne.symm hname]
    rw [happend, List.map_append]
    rfl

/-! ## Small histories -/

def joinOf (ip : String) : JoinCall := ⟨bootConfig, ip, none⟩

def joinAct (ip : String) : Act := .join (joinOf ip) ⟨1, 0⟩

def bootstrapStore : Store :=
  OrderedMap.empty.put (Cluster.registerKey bootConfig) (Cluster.registerInfo bootConfig ⟨1, 0⟩)

theorem bootstrapped_store : Bootstrapped bootstrapStore :=
  ⟨bootConfig, ⟨1, 0⟩, .empty, rfl, by decide +kernel, fun _ => rfl, rfl⟩

theorem noGap_store : NoGap bootstrapStore := by
  intro m n hm hmn hn
  obtain ⟨info, hinfo⟩ := Option.isSome_iff_exists.mp hn
  obtain ⟨value, hvalue, -⟩ := Option.bind_eq_some_iff.mp hinfo
  rw [bootstrapStore, OrderedMap.get_put] at hvalue
  split_ifs at hvalue with hkey
  · have hname : nodeName 1 = nodeName n := append_left_injective hkey
    have := nodeName_injective hname
    omega
  · cases hvalue

theorem join_appends_second : ∃ kv',
    step bootstrapStore (joinAct "10.0.0.2") = some kv' ∧
      ∃ before, poolsOf twoPeers bootstrapStore = some before ∧
        poolsOf twoPeers kv' =
          some (before ++ [poolArg twoPeers.apiPort twoPeers.drivesPerNode "10.0.0.2"]) := by
  have hnew : findNodeNameByIp (joinOf "10.0.0.2").joinerIp (parsed bootstrapStore) = .ok none := by
    decide +kernel
  have hstep : (step bootstrapStore (joinAct "10.0.0.2")).isSome = true := by decide +kernel
  obtain ⟨kv', hkv'⟩ := Option.isSome_iff_exists.mp hstep
  exact ⟨kv', hkv', (join_appends_iff twoPeers rfl ⟨_, [], bootstrapped_store, rfl⟩ hnew hkv').mpr
    noGap_store⟩

/-- Two peers join and the first of them leaves. -/
def gapActs : List Act := [joinAct "10.0.0.2", joinAct "10.0.0.3", .remove "10.0.0.2"]

/-- The next joiner's pool comes before the last one. -/
theorem join_inserts : ∃ kv kv', Reachable step Bootstrapped kv ∧
    findNodeNameByIp (joinOf "10.0.0.4").joinerIp (parsed kv) = .ok none ∧
    step kv (joinAct "10.0.0.4") = some kv' ∧
    ¬ ∃ before, poolsOf twoPeers kv = some before ∧
      poolsOf twoPeers kv' =
        some (before ++ [poolArg twoPeers.apiPort twoPeers.drivesPerNode "10.0.0.4"]) := by
  let pool := poolArg "9000" "4"
  have hrun : (run step bootstrapStore gapActs).any (fun kv =>
      decide (findNodeNameByIp "10.0.0.4" (parsed kv) = .ok none ∧
        poolsOf twoPeers kv = some [pool "10.0.0.1", pool "10.0.0.3"]) &&
      (step kv (joinAct "10.0.0.4")).any fun kv' => decide (poolsOf twoPeers kv' =
        some [pool "10.0.0.1", pool "10.0.0.4", pool "10.0.0.3"])) = true := by
    decide +kernel
  obtain ⟨kv, hkv, htest⟩ := (Option.any_eq_true _ _).mp hrun
  obtain ⟨hbefore, hafter⟩ := Bool.and_eq_true_iff.mp htest
  obtain ⟨hnew, hbefore⟩ := of_decide_eq_true hbefore
  obtain ⟨kv', hkv', hafter⟩ := (Option.any_eq_true _ _).mp hafter
  refine ⟨kv, kv', ⟨_, gapActs, bootstrapped_store, hkv⟩, hnew, hkv', ?_⟩
  rintro ⟨before, hb, ha⟩
  obtain rfl := Option.some.inj (hbefore.symm.trans hb)
  have hlists := (of_decide_eq_true hafter).symm.trans ha
  exact absurd hlists (by decide +kernel)

end MilvusOnprem.PoolOrder
