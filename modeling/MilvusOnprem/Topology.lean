import MilvusOnprem.EtcdClient

/-!
# The topology prefix

Every peer is one key under the prefix with a JSON object as its value. A reader
scans the prefix, drops the values that are not JSON and keeps the rest by node
name, in key order. Values that are JSON but not objects are kept, and looking a
field up in one of them raises.
-/
namespace MilvusOnprem.Topology

open PythonText EtcdClient

def TOPOLOGY_PREFIX : String := "/cluster/topology/peers/"

/-- The loop over a range scan that every reader of the prefix runs. -/
def parseTopology (kvs : List (String × String)) : List (String × Json) :=
  kvs.filterMap fun kv =>
    (JsonText.loads kv.2).map fun info => (removePrefix TOPOLOGY_PREFIX kv.1, info)

/-- `info.get(key)` -/
def infoGet (key : String) : Json → Except Exc (Option Json)
  | .obj fields => .ok (Json.field key fields)
  | _ => .error .attributeError

/-- `_find_node_name_by_ip` -/
def findNodeNameByIp (ip : String) : List (String × Json) → Except Exc (Option String)
  | [] => .ok none
  | (name, info) :: rest => do
      let v ← infoGet "ip" info
      if v = some (.str ip) then .ok (some name) else findNodeNameByIp ip rest

/-! ## What the store says about a name -/

/-- The decoded entry of a node. -/
def entryOf (kv : OrderedMap String String) (name : String) : Option Json :=
  (kv.get (TOPOLOGY_PREFIX ++ name)).bind JsonText.loads

/-- The ip an info carries. -/
def ipOf : Json → Option String
  | .obj fields =>
      match Json.field "ip" fields with
      | some (.str ip) => some ip
      | _ => none
  | _ => none

/-- The ip the store has for a node. -/
def peerIp (kv : OrderedMap String String) (name : String) : Option String :=
  (entryOf kv name).bind ipOf

theorem append_left_injective {pre s t : String} (h : pre ++ s = pre ++ t) : s = t := by
  have hl := congrArg String.toList h
  simp only [String.toList_append, List.append_cancel_left_eq] at hl
  exact String.toList_injective hl

/-- The ip in the text of an entry. -/
def textIp (value : String) : Option String := (JsonText.loads value).bind ipOf

theorem peerIp_put (kv : OrderedMap String String) (name m value : String) :
    peerIp (kv.put (TOPOLOGY_PREFIX ++ name) value) m =
      if name = m then textIp value else peerIp kv m := by
  unfold peerIp entryOf
  rw [OrderedMap.get_put]
  by_cases h : name = m
  · rw [if_pos (by rw [h]), if_pos h]
    rfl
  · rw [if_neg (fun hk => h (append_left_injective hk)), if_neg h]

theorem peerIp_erase (kv : OrderedMap String String) (name m : String) :
    peerIp (kv.erase (TOPOLOGY_PREFIX ++ name)) m = if name = m then none else peerIp kv m := by
  unfold peerIp entryOf
  rw [OrderedMap.get_erase]
  by_cases h : name = m
  · rw [if_pos (by rw [h]), if_pos h]
    rfl
  · rw [if_neg (fun hk => h (append_left_injective hk)), if_neg h]

theorem peerIp_of_get_none {kv : OrderedMap String String} {name : String}
    (h : kv.get (TOPOLOGY_PREFIX ++ name) = none) : peerIp kv name = none := by
  simp only [peerIp, entryOf, h, Option.bind_none]

theorem infoGet_ip {info : Json} {ip : String} (h : infoGet "ip" info = .ok (some (.str ip))) :
    ipOf info = some ip := by
  cases info <;> simp only [infoGet, Except.ok.injEq, reduceCtorEq] at h
  simp only [ipOf, h]

theorem infoGet_ip_of_ipOf {info : Json} {ip : String} (h : ipOf info = some ip) :
    infoGet "ip" info = .ok (some (.str ip)) := by
  cases info with
  | obj fields =>
      simp only [ipOf] at h
      split at h
      · next v hv =>
          cases h
          simp only [infoGet, hv]
      · cases h
  | _ => cases h

/-- Reading the prefix gives exactly the decoded entries. -/
theorem mem_parseTopology {kv : OrderedMap String String} {name : String} {info : Json} :
    (name, info) ∈ parseTopology (withPrefix TOPOLOGY_PREFIX kv) ↔ entryOf kv name = some info := by
  simp only [parseTopology, withPrefix, List.mem_filterMap, List.mem_filter, Option.map_eq_some_iff,
    Prod.mk.injEq, entryOf, Option.bind_eq_some_iff]
  constructor
  · intro h
    obtain ⟨e, ⟨he, hpre⟩, j, hj, hname, hinfo⟩ := h
    have hkey := append_removePrefix hpre
    rw [hname] at hkey
    refine ⟨e.2, ?_, hinfo ▸ hj⟩
    rw [hkey]
    exact OrderedMap.mem_entries.mp he
  · intro h
    obtain ⟨v, hv, hj⟩ := h
    exact ⟨(TOPOLOGY_PREFIX ++ name, v), ⟨OrderedMap.mem_entries.mpr hv, startsWith_append _ _⟩,
      info, hj, removePrefix_append _ _, rfl⟩

/-- A node found by its ip has an entry with that ip. -/
theorem findNodeNameByIp_some {ip name : String} {parsed : List (String × Json)}
    (h : findNodeNameByIp ip parsed = .ok (some name)) :
    ∃ info, (name, info) ∈ parsed ∧ ipOf info = some ip := by
  induction parsed with
  | nil => cases h
  | cons e es ih =>
      obtain ⟨n, info⟩ := e
      unfold findNodeNameByIp at h
      cases hv : infoGet "ip" info with
      | error x =>
          rw [hv] at h
          cases h
      | ok v =>
          simp only [hv, bind, Except.bind] at h
          split_ifs at h with hip
          · cases h
            exact ⟨info, List.mem_cons_self, infoGet_ip (hip ▸ hv)⟩
          · obtain ⟨info', hm, hi⟩ := ih h
            exact ⟨info', List.mem_cons_of_mem _ hm, hi⟩

/-- When the search ends without a node, every info is an object and none of
them has the ip. -/
theorem findNodeNameByIp_none {ip : String} {parsed : List (String × Json)}
    (h : findNodeNameByIp ip parsed = .ok none) :
    ∀ e ∈ parsed, (∃ fields, e.2 = .obj fields) ∧ ipOf e.2 ≠ some ip := by
  induction parsed with
  | nil =>
      intro e he
      cases he
  | cons e es ih =>
      obtain ⟨n, info⟩ := e
      unfold findNodeNameByIp at h
      cases hv : infoGet "ip" info with
      | error x =>
          rw [hv] at h
          cases h
      | ok v =>
          simp only [hv, bind, Except.bind] at h
          split_ifs at h with hip
          · cases h
          intro e' he'
          rcases List.mem_cons.mp he' with he' | he'
          · subst he'
            constructor
            · cases info with
              | obj fields => exact ⟨fields, rfl⟩
              | _ => cases hv
            · intro hi
              have := infoGet_ip_of_ipOf hi
              rw [hv] at this
              cases this
              exact hip rfl
          · exact ih h e' he'

/-- A scan of the prefix has every name once. -/
theorem parseTopology_pairwise (kv : OrderedMap String String) :
    (parseTopology (withPrefix TOPOLOGY_PREFIX kv)).Pairwise fun a b => a.1 ≠ b.1 := by
  have hkeys : (withPrefix TOPOLOGY_PREFIX kv).Pairwise fun a b =>
      removePrefix TOPOLOGY_PREFIX a.1 ≠ removePrefix TOPOLOGY_PREFIX b.1 := by
    refine (kv.sorted.filter _).imp_of_mem fun ha hb hab he => ?_
    exact hab.ne (removePrefix_injective (List.mem_filter.mp ha).2 (List.mem_filter.mp hb).2 he)
  refine hkeys.filterMap _ fun a a' hab b hb b' hb' => ?_
  obtain ⟨info, -, rfl⟩ := Option.map_eq_some_iff.mp hb
  obtain ⟨info', -, rfl⟩ := Option.map_eq_some_iff.mp hb'
  exact hab

/-- A list of two or more nodes holds one with another name. -/
theorem exists_other_name {peers : List (String × Json)} (hnames : peers.Pairwise fun a b => a.1 ≠ b.1)
    (hlen : 1 < peers.length) (name : String) : ∃ e ∈ peers, e.1 ≠ name := by
  match peers, hnames, hlen with
  | a :: b :: rest, hnames, _ =>
      have hab : a.1 ≠ b.1 := List.rel_of_pairwise_cons hnames List.mem_cons_self
      by_cases ha : a.1 = name
      · exact ⟨b, List.mem_cons_of_mem a List.mem_cons_self, fun hb => hab (ha.trans hb.symm)⟩
      · exact ⟨a, List.mem_cons_self, ha⟩

end MilvusOnprem.Topology
