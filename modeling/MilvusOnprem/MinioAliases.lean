import MilvusOnprem.MinioRender
import MilvusOnprem.OrderedMap
import MilvusOnprem.Assignments

/-!
# The aliases of the MinIO nodes

`_render_minio_ha_pool` names the nodes `mio-1`, `mio-2` and so on: the first ones are the
slots of the wide pool, and every later peer is a pool of its own. A list of hosts maps the
slots to the peers that have joined, or to the own host, and then the later peers. The shell
compares numbers in 64 bits, and goes through the keys of an array in an order of its own.
-/
namespace MilvusOnprem.MinioAliases

open PythonText MinioRender Assignments

structure HaPool where
  MINIO_VOLUMES : String
  MINIO_SERVER_CMD : String
  MINIO_EXTRA_HOSTS_BLOCK : String
deriving DecidableEq

def aliasLine (k ip : String) : String := "      - \"mio-" ++ k ++ ":" ++ ip ++ "\""

/-- The array `_alias_to_ip`. -/
def aliasToIp (peers : Peers) : OrderedMap String String :=
  .putAll .empty ((peers.PEER_NAMES.zip peers.PEERS_ARR).filterMap fun p =>
    let idx := removePrefix "node-" p.1
    if isNumber idx then some (idx, p.2) else none)

/-- The loop over the slots, whose counter has 64 bits; nothing if it has not ended. -/
def slotLines (ips : OrderedMap String String) (haSize : ℤ) : ℕ → ℤ → String → Option String
  | 0, _, _ => none
  | fuel + 1, k, block =>
      if k ≤ haSize then
        slotLines ips haSize fuel (Int.bmod (k + 1) (2 ^ 64))
          (block ++ (aliasLine (toString k) (orDefault "127.0.0.1" (ips.get (toString k))) ++ "\n"))
      else some block

/-- `(( k > ha_size ))` -/
def beyond (haSize k : String) : Bool :=
  match shellNumber k, shellNumber haSize with
  | some n, some m => m < n
  | _, _ => false

/-- The loop over the keys of the array. -/
def extraLines (ips : OrderedMap String String) (haSize : String) (keys : List String) (block : String) : String :=
  keys.foldl (fun block k =>
    if beyond haSize k then block ++ (aliasLine k ((ips.get k).getD "") ++ "\n") else block) block

/-- `${MINIO_EXTRA_HOSTS_BLOCK%$'\n'}` -/
def trimNewline (s : String) : String :=
  if s.toList.getLast? = some '\n' then String.ofList s.toList.dropLast else s

def extraHostsBlock (block : String) : String :=
  if block ≠ "" then "    extra_hosts:\n" ++ trimNewline block else block

def serverCmd (volumes port consolePort : String) : String :=
  "server " ++ volumes ++ " --address :" ++ port ++ " --console-address :" ++ consolePort

/-- `_render_minio_ha_pool`, where `order` is how the shell goes through the keys of an array. -/
def renderHaPool (order : List String → List String) (fuel : ℕ) (haSize port consolePort drives : String)
    (peers : Peers) : Option HaPool :=
  let volumes := renderMinioHaPool haSize port drives peers.PEER_NAMES
  let ips := aliasToIp peers
  match shellNumber haSize with
  | some m =>
      (slotLines ips m fuel 1 "").map fun block =>
        ⟨volumes, serverCmd volumes port consolePort,
          extraHostsBlock (extraLines ips haSize (order (ips.entries.map Prod.fst)) block)⟩
  | none => none

/-- The peers `node-k` of a cluster. -/
def peersOf (nodes : List (ℕ × String)) : Peers :=
  ⟨nodes.map Prod.snd, nodes.map fun p => "node-" ++ toString p.1, by simp⟩

/-! ## What the hosts and the volumes say -/

/-- MinIO reads an ellipsis as all the numbers in its range. -/
structure Ellipsis (hosts : String → List String) (port drives : String) : Prop where
  wide : ∀ n : ℕ, 1 ≤ n → hosts (poolArg port drives ("mio-\x7b1..." ++ toString n ++ "\x7d")) =
    (List.range n).map fun i => "mio-" ++ toString (i + 1)
  single : ∀ n : ℕ, 1 ≤ n → hosts (poolArg port drives ("mio-" ++ toString n)) = ["mio-" ++ toString n]

/-- The pools that have a host of this name. -/
def poolsOf (hosts : String → List String) (volumes name : String) : List String :=
  (poolArguments volumes).filter fun arg => name ∈ hosts arg

/-- The lines for a host of this name. -/
def linesFor (block name : String) : List String :=
  (split '\n' block).filter fun line => startsWith line ("      - \"" ++ name ++ ":")

/-- The ip of a node, or of the own host. -/
def addressOf (nodes : List (ℕ × String)) (k : ℕ) : String :=
  (first k nodes).getD "127.0.0.1"

/-- Every host of a pool has one line, with its address. -/
def Mapped (hosts : String → List String) (nodes : List (ℕ × String)) (out : HaPool) : Prop :=
  ∀ name ∈ (poolArguments out.MINIO_VOLUMES).flatMap hosts, ∃ k : ℕ, name = "mio-" ++ toString k ∧
    linesFor out.MINIO_EXTRA_HOSTS_BLOCK name = [aliasLine (toString k) (addressOf nodes k)]

/-- The alias of a number is in one pool and stands for the ip. -/
def Reaches (hosts : String → List String) (out : HaPool) (ip : String) (k : ℕ) : Prop :=
  (poolsOf hosts out.MINIO_VOLUMES ("mio-" ++ toString k)).length = 1 ∧
    aliasLine (toString k) ip ∈ split '\n' out.MINIO_EXTRA_HOSTS_BLOCK

/-- Every alias has its line, and every ip is reached through one alias. -/
def Covers (order : List String → List String) (hosts : String → List String) (port consolePort drives : String)
    (nodes : List (ℕ × String)) (n : ℕ) : Prop :=
  ∃ fuel out, renderHaPool order fuel (toString n) port consolePort drives (peersOf nodes) = some out ∧
    Mapped hosts nodes out ∧ ∀ p ∈ nodes, ∃! k, Reaches hosts out p.2 k

/-! ## Numbers in the shell -/

section Numbers

theorem toList_toString (k : ℕ) : (toString k).toList = Nat.toDigits 10 k := by
  rw [Nat.toString_eq_ofList_toDigits, String.toList_ofList]

theorem toString_injective {j k : ℕ} (h : toString j = toString k) : j = k := by
  have hdigits := congrArg (fun s : String => Nat.ofDigitChars 10 s.toList 0) h
  simpa only [toList_toString, Nat.ofDigitChars_ten_toDigits] using hdigits

theorem isDigit_toString {k : ℕ} {c : Char} (h : c ∈ (toString k).toList) : c.isDigit = true := by
  rw [toList_toString] at h
  exact Nat.isDigit_of_mem_toDigits (by decide) (by decide) h

theorem isNumber_toString (k : ℕ) : isNumber (toString k) = true := by
  rw [isNumber, Bool.and_eq_true, List.all_eq_true]
  refine ⟨decide_eq_true fun hempty => ?_, fun c => isDigit_toString⟩
  have hdigits := toList_toString k
  rw [hempty] at hdigits
  exact Nat.toDigits_ne_nil hdigits.symm

/-- A positive number has no leading zero. -/
theorem head_toDigits {k : ℕ} (h : 1 ≤ k) (ds : List Char) : Nat.toDigits 10 k ≠ '0' :: ds := by
  induction k using Nat.strong_induction_on generalizing ds with
  | h k ih =>
    rw [Nat.toDigits_eq_if (by decide)]
    split_ifs with hlt
    · intro heq
      have hvalue := Nat.toNat_digitChar_sub_48_of_lt_ten hlt
      rw [(List.cons.inj heq).1] at hvalue
      exact absurd hvalue (Nat.ne_of_lt h)
    · obtain ⟨c, cs, hcs⟩ := List.exists_cons_of_ne_nil (Nat.toDigits_ne_nil (b := 10) (n := k / 10))
      have hhead : c ≠ '0' := by
        rintro rfl
        exact ih (k / 10) (by omega) (by omega) cs hcs
      rw [hcs, List.cons_append]
      exact fun heq => hhead (List.cons.inj heq).1

theorem shellNumber_toString {k : ℕ} (h : 1 ≤ k) : shellNumber (toString k) = some (Int.bmod k (2 ^ 64)) := by
  unfold shellNumber
  dsimp only
  rw [toList_toString]
  split
  · next ds hds => exact absurd hds (head_toDigits h ds)
  · next ds hds =>
    congr 2
    exact_mod_cast Nat.ofDigitChars_ten_toDigits (n := k)

/-- Numbers below `2 ^ 63` are what they are. -/
theorem bmod_small {k : ℕ} (h : k < 2 ^ 63) : Int.bmod (k : ℤ) (2 ^ 64) = k :=
  Int.bmod_eq_of_le (by omega) (by omega)

theorem beyond_toString {n k : ℕ} (hn : 1 ≤ n) (hn' : n < 2 ^ 63) (hk : 1 ≤ k) :
    beyond (toString n) (toString k) = decide ((n : ℤ) < Int.bmod k (2 ^ 64)) := by
  unfold beyond
  rw [shellNumber_toString hk, shellNumber_toString hn, bmod_small hn']

theorem extraIndex_node {n k : ℕ} (hn : 1 ≤ n) (hn' : n < 2 ^ 63) (hk : 1 ≤ k) :
    extraIndex (toString n) ("node-" ++ toString k) =
      if (n : ℤ) < Int.bmod k (2 ^ 64) then some (toString k) else none := by
  unfold extraIndex
  dsimp only
  rw [removePrefix_append, isNumber_toString, shellNumber_toString hk, shellNumber_toString hn, bmod_small hn']

end Numbers

/-! ## The loops -/

section Loops

variable {ips : OrderedMap String String} {n : ℕ}

/-- The line of a slot. -/
def slotLine (ips : OrderedMap String String) (k : String) : String :=
  aliasLine k (orDefault "127.0.0.1" (ips.get k))

/-- The text with these lines. -/
def ending (block : String) (lines : List String) : String := lines.foldl (fun block line => block ++ (line ++ "\n")) block

/-- The loop ends when it has counted the slots. -/
theorem slotLines_eq (hn : n < 2 ^ 63 - 1) (fuel : ℕ) {k : ℕ} (hk : k ≤ n + 1) (block : String) :
    slotLines ips n fuel k block = if n + 1 - k < fuel then
      some (ending block ((List.range' k (n + 1 - k)).map fun i => slotLine ips (toString i))) else none := by
  induction fuel generalizing k block with
  | zero => rw [slotLines, if_neg (Nat.not_lt_zero _)]
  | succ fuel ih =>
      rw [slotLines]
      by_cases hle : (k : ℤ) ≤ n
      · have hnext : Int.bmod ((k : ℤ) + 1) (2 ^ 64) = ((k + 1 : ℕ) : ℤ) := by
          rw [← bmod_small (by omega : k + 1 < 2 ^ 63)]
          rfl
        have hcount : n + 1 - k = n + 1 - (k + 1) + 1 := by omega
        rw [if_pos hle, hnext, ih (by omega), hcount, List.range'_succ, List.map_cons]
        exact if_congr Nat.succ_lt_succ_iff.symm rfl rfl
      · have hend : n + 1 - k = 0 := by omega
        rw [if_neg hle, hend, if_pos (Nat.succ_pos fuel)]
        rfl

/-- A loop up to the greatest number does not end. -/
theorem slotLines_greatest (fuel : ℕ) {k : ℤ} (hk : k ≤ (2 ^ 63 - 1 : ℕ)) (block : String) :
    slotLines ips (2 ^ 63 - 1 : ℕ) fuel k block = none := by
  induction fuel generalizing k block with
  | zero => rfl
  | succ fuel ih =>
      rw [slotLines, if_pos hk]
      have hwrap : Int.bmod (k + 1) (2 ^ 64) < (2 ^ 64 + 1) / 2 := Int.bmod_lt (by decide)
      exact ih (by omega) _

theorem extraLines_eq (ips : OrderedMap String String) (haSize : String) (keys : List String) (block : String) :
    extraLines ips haSize keys block =
      ending block ((keys.filter (beyond haSize)).map fun k => aliasLine k ((ips.get k).getD "")) := by
  rw [extraLines, ending, List.foldl_map, List.foldl_filter]

theorem ending_append (block : String) (xs ys : List String) : ending (ending block xs) ys = ending block (xs ++ ys) :=
  List.foldl_append.symm

theorem ending_eq (block line : String) (lines : List String) :
    ending block (line :: lines) = block ++ join "\n" (line :: lines) ++ "\n" := by
  induction lines generalizing block line with
  | nil => simp [ending, join, String.append_assoc]
  | cons next lines ih =>
      rw [show ending block (line :: next :: lines) = ending (block ++ (line ++ "\n")) (next :: lines) from rfl, ih,
        join_cons_cons]
      simp only [String.append_assoc]

theorem extraHostsBlock_lines {lines : List String} (h : lines ≠ []) :
    extraHostsBlock (ending "" lines) = join "\n" ("    extra_hosts:" :: lines) := by
  obtain ⟨line, lines, rfl⟩ := List.exists_cons_of_ne_nil h
  have hne : join "\n" (line :: lines) ++ "\n" ≠ "" := by
    intro hempty
    have hlength := congrArg (fun s : String => s.toList.length) hempty
    simp at hlength
  rw [ending_eq, String.empty_append, extraHostsBlock, if_pos hne, trimNewline]
  simp [join_cons_cons]

end Loops

/-! ## The lines of the block -/

section Lines

variable {nodes : List (ℕ × String)} {order : List String → List String} {n : ℕ}

/-- Nodes of different numbers, with ips that fit in a line. -/
structure Nodes (nodes : List (ℕ × String)) : Prop where
  distinct : (nodes.map Prod.fst).Nodup
  positive : ∀ p ∈ nodes, 1 ≤ p.1
  addressed : ∀ p ∈ nodes, p.2 ≠ "" ∧ '\n' ∉ p.2.toList

theorem aliasToIp_nodes (nodes : List (ℕ × String)) :
    aliasToIp (peersOf nodes) = .putAll .empty (nodes.map fun p => (toString p.1, p.2)) := by
  have hpairs : ((peersOf nodes).PEER_NAMES.zip (peersOf nodes).PEERS_ARR).filterMap (fun p =>
      if isNumber (removePrefix "node-" p.1) then some (removePrefix "node-" p.1, p.2) else none) =
        nodes.map fun p => (toString p.1, p.2) := by
    rw [peersOf, List.zip_map', List.filterMap_map, ← List.filterMap_eq_map]
    congr 1
    funext p
    rw [Function.comp_apply, removePrefix_append, isNumber_toString]
    rfl
  exact congrArg _ hpairs

theorem get_nodes (h : Nodes nodes) {s v : String} : (aliasToIp (peersOf nodes)).get s = some v ↔
    ∃ k, s = toString k ∧ (k, v) ∈ nodes := by
  have hmem : ∀ v, (s, v) ∈ nodes.map (fun p => (toString p.1, p.2)) ↔ ∃ k, s = toString k ∧ (k, v) ∈ nodes := by
    intro v
    rw [List.mem_map]
    constructor
    · rintro ⟨p, hp, heq⟩
      obtain ⟨hkey, rfl⟩ := Prod.mk.inj heq
      exact ⟨p.1, hkey.symm, hp⟩
    · rintro ⟨k, rfl, hp⟩
      exact ⟨_, hp, rfl⟩
  rw [aliasToIp_nodes, OrderedMap.get_putAll, hmem]
  · simp only [OrderedMap.get_empty, reduceCtorEq, and_false, or_false]
  · intro v w hv hw
    obtain ⟨j, hj, hv⟩ := (hmem v).mp hv
    obtain ⟨k, hk, hw⟩ := (hmem w).mp hw
    obtain rfl := toString_injective (hj.symm.trans hk)
    exact Option.some.inj ((first_of_mem h.distinct hv).symm.trans (first_of_mem h.distinct hw))

theorem get_toString (h : Nodes nodes) (k : ℕ) : (aliasToIp (peersOf nodes)).get (toString k) = first k nodes := by
  refine Option.ext fun v => ?_
  rw [get_nodes h]
  constructor
  · rintro ⟨j, hj, hv⟩
    obtain rfl := toString_injective hj
    exact first_of_mem h.distinct hv
  · exact fun hfirst => ⟨k, rfl, mem_of_first hfirst⟩

theorem mem_keys (h : Nodes nodes) {s : String} :
    s ∈ (aliasToIp (peersOf nodes)).entries.map Prod.fst ↔ ∃ p ∈ nodes, s = toString p.1 := by
  rw [List.mem_map]
  constructor
  · rintro ⟨e, he, rfl⟩
    obtain ⟨k, hk, hp⟩ := (get_nodes h).mp (OrderedMap.mem_entries.mp he)
    exact ⟨_, hp, hk⟩
  · rintro ⟨p, hp, rfl⟩
    exact ⟨_, OrderedMap.mem_entries.mpr ((get_nodes h).mpr ⟨p.1, rfl, hp⟩), rfl⟩

/-- The numbers that have a line. -/
def listed (order : List String → List String) (n : ℕ) (nodes : List (ℕ × String)) : List String :=
  (List.range' 1 n).map toString ++
    (order ((aliasToIp (peersOf nodes)).entries.map Prod.fst)).filter (beyond (toString n))

/-- The slots, and the nodes that the shell finds beyond them. -/
theorem mem_listed (h : Nodes nodes) (horder : ∀ keys, (order keys).Perm keys) (hn : 1 ≤ n) (hn' : n < 2 ^ 63)
    {s : String} : s ∈ listed order n nodes ↔ ∃ k : ℕ, s = toString k ∧
      (1 ≤ k ∧ k ≤ n ∨ k ∈ nodes.map Prod.fst ∧ (n : ℤ) < Int.bmod k (2 ^ 64)) := by
  rw [listed, List.mem_append, List.mem_map, List.mem_filter, (horder _).mem_iff, mem_keys h]
  constructor
  · rintro (⟨k, hk, rfl⟩ | ⟨⟨p, hp, rfl⟩, hbeyond⟩)
    · rw [List.mem_range'_1] at hk
      exact ⟨k, rfl, .inl (by omega)⟩
    · rw [beyond_toString hn hn' (h.positive p hp), decide_eq_true_eq] at hbeyond
      exact ⟨p.1, rfl, .inr ⟨List.mem_map.mpr ⟨p, hp, rfl⟩, hbeyond⟩⟩
  · rintro ⟨k, rfl, hk | ⟨hk, hbeyond⟩⟩
    · exact .inl ⟨k, by rw [List.mem_range'_1]; omega, rfl⟩
    · obtain ⟨p, hp, rfl⟩ := List.mem_map.mp hk
      refine .inr ⟨⟨p, hp, rfl⟩, ?_⟩
      rwa [beyond_toString hn hn' (h.positive p hp), decide_eq_true_eq]

/-- A node beyond the slots is no slot. -/
theorem lt_of_beyond {k : ℕ} (h : (n : ℤ) < Int.bmod k (2 ^ 64)) : n < k := by
  rcases lt_or_ge k (2 ^ 63) with hk | hk
  · rw [bmod_small hk] at h
    omega
  · have hlt : Int.bmod (k : ℤ) (2 ^ 64) < (2 ^ 64 + 1) / 2 := Int.bmod_lt (by decide)
    omega

theorem nodup_listed (h : Nodes nodes) (horder : ∀ keys, (order keys).Perm keys) (hn : 1 ≤ n) (hn' : n < 2 ^ 63) :
    (listed order n nodes).Nodup := by
  have hkeys : (order ((aliasToIp (peersOf nodes)).entries.map Prod.fst)).Nodup :=
    (horder _).nodup_iff.mpr (List.pairwise_map.mpr ((aliasToIp (peersOf nodes)).sorted.imp ne_of_lt))
  refine List.nodup_append.mpr ⟨?_, hkeys.filter _, ?_⟩
  · exact List.Nodup.map (fun _ _ => toString_injective) (List.nodup_range' ..)
  · rintro s hs t ht rfl
    obtain ⟨k, hk, rfl⟩ := List.mem_map.mp hs
    obtain ⟨hmem, hbeyond⟩ := List.mem_filter.mp ht
    obtain ⟨p, hp, heq⟩ := (mem_keys h).mp ((horder _).mem_iff.mp hmem)
    rw [heq, beyond_toString hn hn' (h.positive p hp), decide_eq_true_eq] at hbeyond
    obtain rfl := toString_injective heq
    rw [List.mem_range'_1] at hk
    have hlt := lt_of_beyond hbeyond
    omega

theorem orDefault_some {dflt v : String} (h : v ≠ "") : orDefault dflt (some v) = v := by
  unfold orDefault
  split
  · next heq => exact absurd (Option.some.inj heq) h
  · next heq => cases heq
  · next heq => exact (Option.some.inj heq).symm

/-- The hosts of the wide pool and of the later nodes. -/
def blockLines (order : List String → List String) (n : ℕ) (nodes : List (ℕ × String)) : List String :=
  (listed order n nodes).map (slotLine (aliasToIp (peersOf nodes)))

theorem renderHaPool_nodes (h : Nodes nodes) (horder : ∀ keys, (order keys).Perm keys) (hn : 1 ≤ n)
    (hn' : n < 2 ^ 63 - 1) (port consolePort drives : String) : ∃ out,
    (∀ fuel, renderHaPool order fuel (toString n) port consolePort drives (peersOf nodes) =
      if n < fuel then some out else none) ∧
      out.MINIO_VOLUMES = renderMinioHaPool (toString n) port drives (peersOf nodes).PEER_NAMES ∧
      out.MINIO_EXTRA_HOSTS_BLOCK = join "\n" ("    extra_hosts:" :: blockLines order n nodes) := by
  have hkeys : ((order ((aliasToIp (peersOf nodes)).entries.map Prod.fst)).filter (beyond (toString n))).map
      (fun k => aliasLine k (((aliasToIp (peersOf nodes)).get k).getD "")) =
        ((order ((aliasToIp (peersOf nodes)).entries.map Prod.fst)).filter (beyond (toString n))).map
          (slotLine (aliasToIp (peersOf nodes))) := by
    refine List.map_congr_left fun s hs => ?_
    obtain ⟨p, hp, rfl⟩ := (mem_keys h).mp ((horder _).mem_iff.mp (List.mem_of_mem_filter hs))
    rw [slotLine, get_toString h, first_of_mem h.distinct hp, orDefault_some (h.addressed p hp).1, Option.getD_some]
  have hlines : ((List.range' 1 n).map fun i : ℕ => slotLine (aliasToIp (peersOf nodes)) (toString i)) ++
      ((order ((aliasToIp (peersOf nodes)).entries.map Prod.fst)).filter (beyond (toString n))).map
        (slotLine (aliasToIp (peersOf nodes))) = blockLines order n nodes := by
    rw [blockLines, listed, List.map_append, List.map_map]
    rfl
  have hne : blockLines order n nodes ≠ [] := by
    obtain ⟨m, rfl⟩ := Nat.exists_eq_add_of_le' hn
    rw [← hlines, List.range'_succ]
    exact List.cons_ne_nil _ _
  have hblock : extraHostsBlock (extraLines (aliasToIp (peersOf nodes)) (toString n)
      (order ((aliasToIp (peersOf nodes)).entries.map Prod.fst))
      (ending "" ((List.range' 1 n).map fun i : ℕ => slotLine (aliasToIp (peersOf nodes)) (toString i)))) =
        join "\n" ("    extra_hosts:" :: blockLines order n nodes) := by
    rw [extraLines_eq, ending_append, hkeys, hlines]
    exact extraHostsBlock_lines hne
  refine ⟨⟨renderMinioHaPool (toString n) port drives (peersOf nodes).PEER_NAMES,
    serverCmd (renderMinioHaPool (toString n) port drives (peersOf nodes).PEER_NAMES) port consolePort,
    extraHostsBlock (extraLines (aliasToIp (peersOf nodes)) (toString n)
      (order ((aliasToIp (peersOf nodes)).entries.map Prod.fst))
      (ending "" ((List.range' 1 n).map fun i : ℕ => slotLine (aliasToIp (peersOf nodes)) (toString i))))⟩,
    fun fuel => ?_, rfl, hblock⟩
  have hslots := @slotLines_eq (aliasToIp (peersOf nodes)) n hn' fuel 1 (Nat.le_add_left 1 n) ""
  rw [Nat.add_sub_cancel] at hslots
  unfold renderHaPool
  dsimp only
  rw [shellNumber_toString hn, bmod_small (by omega)]
  dsimp only
  rw [show (1 : ℤ) = ((1 : ℕ) : ℤ) from rfl, hslots]
  by_cases hfuel : n < fuel
  · rw [if_pos hfuel, if_pos hfuel, Option.map_some]
  · rw [if_neg hfuel, if_neg hfuel, Option.map_none]

theorem renderHaPool_greatest (order : List String → List String) (fuel : ℕ) (port consolePort drives : String)
    (peers : Peers) : renderHaPool order fuel (toString (2 ^ 63 - 1)) port consolePort drives peers = none := by
  unfold renderHaPool
  dsimp only
  rw [shellNumber_toString (by decide), bmod_small (by decide)]
  dsimp only
  rw [slotLines_greatest fuel (by decide), Option.map_none]

theorem notMem_toString {c : Char} (hc : c.isDigit = false) (k : ℕ) : c ∉ (toString k).toList := by
  intro hmem
  rw [isDigit_toString hmem] at hc
  cases hc

theorem slotLine_toString (h : Nodes nodes) (k : ℕ) :
    slotLine (aliasToIp (peersOf nodes)) (toString k) = aliasLine (toString k) (addressOf nodes k) := by
  rw [slotLine, get_toString h, addressOf]
  cases hfirst : first k nodes with
  | none => rfl
  | some ip => rw [orDefault_some (h.addressed _ (mem_of_first hfirst)).1, Option.getD_some]

theorem addressOf_line (h : Nodes nodes) (k : ℕ) : '\n' ∉ (addressOf nodes k).toList := by
  rw [addressOf]
  cases hfirst : first k nodes with
  | none => exact (by decide : '\n' ∉ "127.0.0.1".toList)
  | some ip => exact (h.addressed _ (mem_of_first hfirst)).2

theorem toList_aliasLine (k ip : String) : (aliasLine k ip).toList =
    "      - \"mio-".toList ++ (k.toList ++ ':' :: (ip.toList ++ ['"'])) := by
  change ("      - \"mio-" ++ k ++ ":" ++ ip ++ "\"").toList = _
  simp only [String.toList_append, List.append_assoc]
  rfl

theorem split_block (h : Nodes nodes) (horder : ∀ keys, (order keys).Perm keys) (hn : 1 ≤ n) (hn' : n < 2 ^ 63) :
    split '\n' (join "\n" ("    extra_hosts:" :: blockLines order n nodes)) =
      "    extra_hosts:" :: blockLines order n nodes := by
  refine split_join '\n' (List.cons_ne_nil _ _) fun line hline => ?_
  rcases List.mem_cons.mp hline with rfl | hline
  · decide
  · obtain ⟨s, hs, rfl⟩ := List.mem_map.mp hline
    obtain ⟨k, rfl, -⟩ := (mem_listed h horder hn hn').mp hs
    rw [slotLine_toString h, toList_aliasLine]
    simp only [List.mem_append, List.mem_cons, not_or]
    exact ⟨by decide, notMem_toString (by decide) k, by decide, addressOf_line h k, by decide⟩

theorem takeWhile_colon (k : ℕ) (rest : List Char) :
    ((toString k).toList ++ ':' :: rest).takeWhile (fun c => c ≠ ':') = (toString k).toList := by
  rw [List.takeWhile_append_of_pos, List.takeWhile_cons_of_neg (by simp), List.append_nil]
  intro c hc
  rw [decide_eq_true_eq]
  rintro rfl
  exact notMem_toString (by decide) k hc

/-- A line is about one alias. -/
theorem startsWith_aliasLine {j k : ℕ} {ip : String} :
    startsWith (aliasLine (toString k) ip) ("      - \"" ++ ("mio-" ++ toString j) ++ ":") = true ↔ j = k := by
  have hstart : ("      - \"" ++ ("mio-" ++ toString j) ++ ":").toList =
      "      - \"mio-".toList ++ ((toString j).toList ++ [':']) := by
    simp only [String.toList_append, List.append_assoc]
    rfl
  rw [startsWith, List.isPrefixOf_iff_prefix, toList_aliasLine, hstart, List.prefix_append_right_inj]
  constructor
  · rintro ⟨rest, hrest⟩
    rw [List.append_assoc, List.singleton_append] at hrest
    have htake := congrArg (List.takeWhile fun c => c ≠ ':') hrest
    rw [takeWhile_colon, takeWhile_colon] at htake
    exact toString_injective (String.toList_injective htake)
  · rintro rfl
    exact ⟨ip.toList ++ ['"'], by simp⟩

/-- A listed number has one line, with its address. -/
theorem linesFor_listed (h : Nodes nodes) (horder : ∀ keys, (order keys).Perm keys) (hn : 1 ≤ n) (hn' : n < 2 ^ 63)
    {k : ℕ} (hk : toString k ∈ listed order n nodes) :
    linesFor (join "\n" ("    extra_hosts:" :: blockLines order n nodes)) ("mio-" ++ toString k) =
      [aliasLine (toString k) (addressOf nodes k)] := by
  have hheader : ¬startsWith "    extra_hosts:" ("      - \"" ++ ("mio-" ++ toString k) ++ ":") = true := by
    rw [startsWith, List.isPrefixOf_iff_prefix, String.append_assoc, String.toList_append]
    intro hprefix'
    exact absurd ((List.prefix_append _ _).trans hprefix') (by decide)
  have hsame : ∀ s ∈ listed order n nodes,
      ((fun line => startsWith line ("      - \"" ++ ("mio-" ++ toString k) ++ ":")) ∘
        slotLine (aliasToIp (peersOf nodes))) s = decide (s = toString k) := by
    intro s hs
    obtain ⟨j, rfl, -⟩ := (mem_listed h horder hn hn').mp hs
    rw [Function.comp_apply, slotLine_toString h, Bool.eq_iff_iff, startsWith_aliasLine, decide_eq_true_eq]
    exact ⟨fun heq => heq ▸ rfl, fun heq => (toString_injective heq).symm⟩
  rw [linesFor, split_block h horder hn hn',
    List.filter_cons_of_neg (p := fun line => startsWith line ("      - \"" ++ ("mio-" ++ toString k) ++ ":")) hheader,
    blockLines, List.filter_map,
    List.filter_congr hsame, List.filter_eq, List.count_eq_one_of_mem (nodup_listed h horder hn hn') hk,
    List.replicate_one, List.map_singleton, slotLine_toString h]

end Lines

/-! ## The pools -/

section Pools

variable {nodes : List (ℕ × String)} {hosts : String → List String} {port drives : String} {n : ℕ}

/-- The nodes that are pools of their own. -/
def laterNodes (n : ℕ) (nodes : List (ℕ × String)) : List ℕ :=
  (nodes.map Prod.fst).filter fun k => (n : ℤ) < Int.bmod k (2 ^ 64)

theorem filterMap_extraIndex (h : ∀ p ∈ nodes, 1 ≤ p.1) (hn : 1 ≤ n) (hn' : n < 2 ^ 63) :
    (peersOf nodes).PEER_NAMES.filterMap (extraIndex (toString n)) = (laterNodes n nodes).map toString := by
  rw [peersOf, laterNodes]
  dsimp only
  induction nodes with
  | nil => rfl
  | cons p nodes ih =>
      rw [List.map_cons, List.map_cons, List.filterMap_cons, extraIndex_node hn hn' (h p List.mem_cons_self),
        ih fun q hq => h q (List.mem_cons_of_mem _ hq), List.filter_cons]
      by_cases hlt : (n : ℤ) < Int.bmod p.1 (2 ^ 64)
      · rw [if_pos hlt, if_pos (decide_eq_true hlt), List.map_cons]
      · rw [if_neg hlt, if_neg (by rwa [decide_eq_true_eq])]

/-- The arguments: the wide pool, and one for each later node. -/
theorem args_nodes (h : Nodes nodes) (hn : 1 ≤ n) (hn' : n < 2 ^ 63) (hport : ' ' ∉ port.toList)
    (hdrives : ' ' ∉ drives.toList) :
    poolArguments (renderMinioHaPool (toString n) port drives (peersOf nodes).PEER_NAMES) =
      poolArg port drives ("mio-\x7b1..." ++ toString n ++ "\x7d") ::
        (laterNodes n nodes).map fun k => poolArg port drives ("mio-" ++ toString k) := by
  have hblank : ∀ host : String, ' ' ∉ host.toList → ' ' ∉ (poolArg port drives host).toList := by
    intro host hhost
    rw [toList_poolArg]
    simp [hhost, hport, hdrives]
  rw [renderMinioHaPool_eq, filterMap_extraIndex h.positive hn hn', poolArguments, List.map_map]
  refine split_join ' ' (List.cons_ne_nil _ _) fun arg harg => ?_
  rcases List.mem_cons.mp harg with rfl | harg
  · refine hblank _ ?_
    simp only [String.toList_append, List.mem_append, not_or]
    exact ⟨⟨by decide, notMem_toString (by decide) n⟩, by decide⟩
  · obtain ⟨k, -, rfl⟩ := List.mem_map.mp harg
    refine hblank _ ?_
    simp only [String.toList_append, List.mem_append, not_or]
    exact ⟨by decide, notMem_toString (by decide) k⟩

theorem mem_laterNodes {k : ℕ} :
    k ∈ laterNodes n nodes ↔ k ∈ nodes.map Prod.fst ∧ (n : ℤ) < Int.bmod k (2 ^ 64) := by
  rw [laterNodes, List.mem_filter, decide_eq_true_eq]

theorem alias_injective {j k : ℕ} : "mio-" ++ toString k = "mio-" ++ toString j ↔ j = k := by
  refine ⟨fun heq => ?_, fun heq => heq ▸ rfl⟩
  have hnumber := congrArg (removePrefix "mio-") heq
  rw [removePrefix_append, removePrefix_append] at hnumber
  exact (toString_injective hnumber).symm

theorem mem_slots {k : ℕ} :
    "mio-" ++ toString k ∈ (List.range n).map (fun i => "mio-" ++ toString (i + 1)) ↔ 1 ≤ k ∧ k ≤ n := by
  rw [List.mem_map]
  constructor
  · rintro ⟨i, hi, heq⟩
    rw [List.mem_range] at hi
    have hik := alias_injective.mp heq
    omega
  · intro hk
    exact ⟨k - 1, by rw [List.mem_range]; omega, by rw [Nat.sub_add_cancel hk.1]⟩

/-- An alias of a slot or of a later node is in one pool, and any other is in none. -/
theorem length_poolsOf (h : Nodes nodes) (hhosts : Ellipsis hosts port drives) (hn : 1 ≤ n) (hn' : n < 2 ^ 63)
    (hport : ' ' ∉ port.toList) (hdrives : ' ' ∉ drives.toList) (k : ℕ) :
    (poolsOf hosts (renderMinioHaPool (toString n) port drives (peersOf nodes).PEER_NAMES) ("mio-" ++ toString k)).length =
      if 1 ≤ k ∧ k ≤ n ∨ k ∈ laterNodes n nodes then 1 else 0 := by
  have hlater : ∀ j ∈ laterNodes n nodes, ((fun arg => decide ("mio-" ++ toString k ∈ hosts arg)) ∘
      fun j => poolArg port drives ("mio-" ++ toString j)) j = decide (j = k) := by
    intro j hj
    obtain ⟨p, hp, rfl⟩ := List.mem_map.mp (mem_laterNodes.mp hj).1
    rw [Function.comp_apply, hhosts.single p.1 (h.positive p hp), decide_eq_decide, List.mem_singleton]
    exact alias_injective
  have hcount : ((laterNodes n nodes).filter fun j => j = k).length = if k ∈ laterNodes n nodes then 1 else 0 := by
    rw [List.filter_eq, List.length_replicate]
    split_ifs with hk
    · exact List.count_eq_one_of_mem (h.distinct.filter _) hk
    · exact List.count_eq_zero.mpr hk
  rw [poolsOf, args_nodes h hn hn' hport hdrives, List.filter_cons, hhosts.wide n hn, List.filter_map,
    List.filter_congr hlater]
  by_cases hk : 1 ≤ k ∧ k ≤ n
  · have hnot : k ∉ laterNodes n nodes := by
      intro hmem
      have hlt := lt_of_beyond (mem_laterNodes.mp hmem).2
      omega
    rw [if_pos (decide_eq_true (mem_slots.mpr hk)), List.length_cons, List.length_map, hcount, if_neg hnot,
      if_pos (.inl hk)]
  · rw [if_neg (by rw [decide_eq_true_eq, mem_slots]; exact hk), List.length_map, hcount]
    exact if_congr (or_iff_right hk).symm rfl rfl

end Pools

/-! ## Who is reached -/

section Reached

variable {nodes : List (ℕ × String)} {order : List String → List String} {hosts : String → List String}
  {port consolePort drives : String} {n : ℕ} {out : HaPool}

/-- A wide pool of `n` slots, a number that the shell can count to. -/
structure WidePool (order : List String → List String) (hosts : String → List String) (port drives : String)
    (nodes : List (ℕ × String)) (n : ℕ) : Prop where
  valid : Nodes nodes
  permutes : ∀ keys, (order keys).Perm keys
  reads : Ellipsis hosts port drives
  portWord : ' ' ∉ port.toList
  drivesWord : ' ' ∉ drives.toList
  wide : 2 ≤ n
  counted : n < 2 ^ 63 - 1

/-- What was rendered for it. -/
structure Rendered (order : List String → List String) (hosts : String → List String) (port drives : String)
    (nodes : List (ℕ × String)) (n : ℕ) (out : HaPool) : Prop extends WidePool order hosts port drives nodes n where
  volumes : out.MINIO_VOLUMES = renderMinioHaPool (toString n) port drives (peersOf nodes).PEER_NAMES
  block : out.MINIO_EXTRA_HOSTS_BLOCK = join "\n" ("    extra_hosts:" :: blockLines order n nodes)

theorem WidePool.slots (h : WidePool order hosts port drives nodes n) : 1 ≤ n := (Nat.le_add_left 1 1).trans h.wide

theorem WidePool.small (h : WidePool order hosts port drives nodes n) : n < 2 ^ 63 := h.counted.trans (by decide)

theorem Rendered.linesFor (h : Rendered order hosts port drives nodes n out) {k : ℕ}
    (hk : 1 ≤ k ∧ k ≤ n ∨ k ∈ laterNodes n nodes) :
    MinioAliases.linesFor out.MINIO_EXTRA_HOSTS_BLOCK ("mio-" ++ toString k) =
      [aliasLine (toString k) (addressOf nodes k)] := by
  rw [h.block]
  refine linesFor_listed h.valid h.permutes h.slots h.small ?_
  rw [mem_listed h.valid h.permutes h.slots h.small]
  exact ⟨k, rfl, hk.imp_right mem_laterNodes.mp⟩

theorem Rendered.mapped (h : Rendered order hosts port drives nodes n out) : Mapped hosts nodes out := by
  intro name hname
  have hk : ∃ k : ℕ, name = "mio-" ++ toString k ∧ (1 ≤ k ∧ k ≤ n ∨ k ∈ laterNodes n nodes) := by
    rw [h.volumes, args_nodes h.valid h.slots h.small h.portWord h.drivesWord, List.flatMap_cons, List.mem_append,
      h.reads.wide n h.slots, List.mem_flatMap] at hname
    rcases hname with hname | ⟨arg, harg, hname⟩
    · obtain ⟨i, hi, rfl⟩ := List.mem_map.mp hname
      exact ⟨i + 1, rfl, .inl (mem_slots.mp hname)⟩
    · obtain ⟨k, hk, rfl⟩ := List.mem_map.mp harg
      obtain ⟨p, hp, rfl⟩ := List.mem_map.mp (mem_laterNodes.mp hk).1
      rw [h.reads.single p.1 (h.valid.positive p hp), List.mem_singleton] at hname
      exact ⟨p.1, hname, .inr hk⟩
  obtain ⟨k, rfl, hk⟩ := hk
  exact ⟨k, rfl, h.linesFor hk⟩

theorem aliasLine_injective {k ip ip' : String} (h : aliasLine k ip = aliasLine k ip') : ip = ip' := by
  have hlists := congrArg String.toList h
  rw [toList_aliasLine, toList_aliasLine, List.append_cancel_left_eq, List.append_cancel_left_eq, List.cons.injEq,
    List.append_cancel_right_eq] at hlists
  exact String.toList_injective hlists.2

/-- The alias of a slot or of a later node reaches its address, and nothing else is reached. -/
theorem Rendered.reaches_iff (h : Rendered order hosts port drives nodes n out) {ip : String} {k : ℕ} :
    Reaches hosts out ip k ↔ (1 ≤ k ∧ k ≤ n ∨ k ∈ laterNodes n nodes) ∧ addressOf nodes k = ip := by
  have hlength := length_poolsOf h.valid h.reads h.slots h.small h.portWord h.drivesWord k
  rw [Reaches, h.volumes, hlength]
  by_cases hk : 1 ≤ k ∧ k ≤ n ∨ k ∈ laterNodes n nodes
  · rw [if_pos hk, eq_self_iff_true, true_and, and_iff_right hk]
    have hlines := h.linesFor hk
    have hmem : ∀ line, line ∈ MinioAliases.linesFor out.MINIO_EXTRA_HOSTS_BLOCK ("mio-" ++ toString k) ↔
        line ∈ split '\n' out.MINIO_EXTRA_HOSTS_BLOCK ∧
          startsWith line ("      - \"" ++ ("mio-" ++ toString k) ++ ":") = true := fun line => List.mem_filter
    rw [hlines] at hmem
    constructor
    · intro hline
      have hsame := (hmem _).mpr ⟨hline, startsWith_aliasLine.mpr rfl⟩
      exact (aliasLine_injective (List.mem_singleton.mp hsame)).symm
    · rintro rfl
      exact ((hmem _).mp (List.mem_singleton.mpr rfl)).1
  · rw [if_neg hk]
    exact iff_of_false (fun hreach => absurd hreach.1 (by decide)) fun hreach => hk hreach.1

theorem WidePool.renders (h : WidePool order hosts port drives nodes n) (consolePort : String) : ∃ out,
    (∀ fuel, renderHaPool order fuel (toString n) port consolePort drives (peersOf nodes) =
      if n < fuel then some out else none) ∧ Rendered order hosts port drives nodes n out := by
  obtain ⟨out, hout, hvolumes, hblock⟩ :=
    renderHaPool_nodes h.valid h.permutes h.slots h.counted port consolePort drives
  exact ⟨out, hout, h, hvolumes, hblock⟩

theorem addressOf_node (h : Nodes nodes) {p : ℕ × String} (hp : p ∈ nodes) : addressOf nodes p.1 = p.2 := by
  rw [addressOf, first_of_mem h.distinct hp, Option.getD_some]

theorem addressOf_free {k : ℕ} (hk : k ∉ nodes.map Prod.fst) : addressOf nodes k = "127.0.0.1" := by
  have hnone : first k nodes = none :=
    first_eq_none.mpr fun e he heq => hk (List.mem_map.mpr ⟨e, he, heq⟩)
  rw [addressOf, hnone, Option.getD_none]

/-- The shell finds every node that is no slot. -/
def Comparable (n : ℕ) (nodes : List (ℕ × String)) : Prop :=
  ∀ p ∈ nodes, n < p.1 → (n : ℤ) < Int.bmod p.1 (2 ^ 64)

instance (n : ℕ) (nodes : List (ℕ × String)) : Decidable (Comparable n nodes) :=
  inferInstanceAs (Decidable (∀ p ∈ nodes, n < p.1 → (n : ℤ) < Int.bmod p.1 (2 ^ 64)))

theorem Rendered.reaches_node (h : Rendered order hosts port drives nodes n out) (hnodes : Comparable n nodes)
    {p : ℕ × String} (hp : p ∈ nodes) : Reaches hosts out p.2 p.1 := by
  refine h.reaches_iff.mpr ⟨?_, addressOf_node h.valid hp⟩
  rcases Nat.lt_or_ge n p.1 with hlt | hle
  · exact .inr (mem_laterNodes.mpr ⟨List.mem_map.mpr ⟨p, hp, rfl⟩, hnodes p hp hlt⟩)
  · exact .inl ⟨h.valid.positive p hp, hle⟩

/-- No ip is reached twice, if the ips differ and that of the free slots is not among them. -/
theorem Rendered.unique_iff (h : Rendered order hosts port drives nodes n out) (hnodes : Comparable n nodes) :
    (∀ p ∈ nodes, ∃! k, Reaches hosts out p.2 k) ↔ (nodes.map Prod.snd).Nodup ∧
      ("127.0.0.1" ∈ nodes.map Prod.snd → ∀ k, 1 ≤ k → k ≤ n → k ∈ nodes.map Prod.fst) := by
  constructor
  · intro hunique
    constructor
    · refine List.Nodup.map_on (fun p hp q hq heq => ?_) h.valid.distinct.of_map
      have hreach := h.reaches_node hnodes hq
      rw [← heq] at hreach
      exact Prod.ext ((hunique p hp).unique (h.reaches_node hnodes hp) hreach) heq
    · intro hmem k hk hk'
      obtain ⟨p, hp, hip⟩ := List.mem_map.mp hmem
      by_contra hfree
      have hslot : Reaches hosts out p.2 k := h.reaches_iff.mpr ⟨.inl ⟨hk, hk'⟩, (addressOf_free hfree).trans hip.symm⟩
      have hsame := (hunique p hp).unique hslot (h.reaches_node hnodes hp)
      exact hfree (List.mem_map.mpr ⟨p, hp, hsame.symm⟩)
  · rintro ⟨hdistinct, hfull⟩ p hp
    refine ⟨p.1, h.reaches_node hnodes hp, fun k hk => ?_⟩
    obtain ⟨hlisted, haddress⟩ := h.reaches_iff.mp hk
    by_cases hjoined : k ∈ nodes.map Prod.fst
    · obtain ⟨q, hq, rfl⟩ := List.mem_map.mp hjoined
      rw [addressOf_node h.valid hq] at haddress
      rw [List.inj_on_of_nodup_map hdistinct hq hp haddress]
    · rw [addressOf_free hjoined] at haddress
      have hslot := hlisted.resolve_right fun hlater => hjoined (mem_laterNodes.mp hlater).1
      exact absurd (hfull (List.mem_map.mpr ⟨p, hp, haddress.symm⟩) k hslot.1 hslot.2) hjoined

/-- Every alias of the pools has one line, with the ip of its node or of the own host. Every
node is reached by its alias in one pool, and by no other alias if and only if no ip occurs
twice and that of the free slots is not among them. -/
theorem aliases_cover (h : WidePool order hosts port drives nodes n) (hnodes : Comparable n nodes)
    (consolePort : String) : ∃ fuel out,
      renderHaPool order fuel (toString n) port consolePort drives (peersOf nodes) = some out ∧
        Mapped hosts nodes out ∧ (∀ p ∈ nodes, Reaches hosts out p.2 p.1) ∧
        ((∀ p ∈ nodes, ∃! k, Reaches hosts out p.2 k) ↔ (nodes.map Prod.snd).Nodup ∧
          ("127.0.0.1" ∈ nodes.map Prod.snd → ∀ k, 1 ≤ k → k ≤ n → k ∈ nodes.map Prod.fst)) := by
  obtain ⟨out, hout, hrendered⟩ := h.renders consolePort
  exact ⟨n + 1, out, by rw [hout, if_pos n.lt_succ_self], hrendered.mapped, fun _ => hrendered.reaches_node hnodes, hrendered.unique_iff hnodes⟩

end Reached

/-! ## Clusters that are not covered -/

/-- The hosts of an argument with at most one ellipsis, in its host. -/
def hostsOf (arg : String) : List String :=
  let host := (arg.toList.drop 7).takeWhile fun c => c ≠ ':'
  if '\x7b' ∈ host then
    let last := Nat.ofDigitChars 10 (((host.dropWhile fun c => c ≠ '\x7b').drop 5).takeWhile Char.isDigit) 0
    (List.range last).map fun i => String.ofList (host.takeWhile fun c => c ≠ '\x7b') ++ toString (i + 1)
  else [String.ofList host]

theorem host_poolArg {host : String} (h : ':' ∉ host.toList) (port drives : String) :
    ((poolArg port drives host).toList.drop 7).takeWhile (fun c => c ≠ ':') = host.toList := by
  rw [toList_poolArg, List.append_assoc, List.drop_left' (by decide), List.takeWhile_append_of_pos,
    List.takeWhile_cons_of_neg (by simp), List.append_nil]
  intro c hc
  rw [decide_eq_true_eq]
  rintro rfl
  exact h hc

theorem hostsOf_wide (n : ℕ) (port drives : String) :
    hostsOf (poolArg port drives ("mio-\x7b1..." ++ toString n ++ "\x7d")) =
      (List.range n).map fun i => "mio-" ++ toString (i + 1) := by
  have hchars : ("mio-\x7b1..." ++ toString n ++ "\x7d").toList =
      "mio-".toList ++ '\x7b' :: ("1...".toList ++ ((toString n).toList ++ ['\x7d'])) := by
    simp only [String.toList_append, List.append_assoc]
    rfl
  have hcolon : ':' ∉ ("mio-\x7b1..." ++ toString n ++ "\x7d").toList := by
    simp only [String.toList_append, List.mem_append, not_or]
    exact ⟨⟨by decide, notMem_toString (by decide) n⟩, by decide⟩
  have hstem : ∀ rest, ("mio-".toList ++ '\x7b' :: rest).takeWhile (fun c => c ≠ '\x7b') = "mio-".toList ∧
      ("mio-".toList ++ '\x7b' :: rest).dropWhile (fun c => c ≠ '\x7b') = '\x7b' :: rest := by
    intro rest
    have hkept : ∀ c ∈ "mio-".toList, decide (c ≠ '\x7b') = true := by decide
    rw [List.takeWhile_append_of_pos hkept, List.takeWhile_cons_of_neg (by simp), List.append_nil,
      List.dropWhile_append_of_pos hkept, List.dropWhile_cons_of_neg (by simp)]
    exact ⟨rfl, rfl⟩
  have hlast : ((toString n).toList ++ ['\x7d']).takeWhile Char.isDigit = (toString n).toList := by
    rw [List.takeWhile_append_of_pos fun c => isDigit_toString, List.takeWhile_cons_of_neg (by decide), List.append_nil]
  unfold hostsOf
  dsimp only
  rw [host_poolArg hcolon, hchars, if_pos (List.mem_append_right _ List.mem_cons_self), (hstem _).1, (hstem _).2,
    List.drop_succ_cons, List.drop_left' (by decide), hlast, toList_toString, Nat.ofDigitChars_ten_toDigits,
    String.ofList_toList]

theorem hostsOf_single (n : ℕ) (port drives : String) :
    hostsOf (poolArg port drives ("mio-" ++ toString n)) = ["mio-" ++ toString n] := by
  have hnone : ∀ c : Char, c.isDigit = false → c ∉ "mio-".toList → c ∉ ("mio-" ++ toString n).toList := by
    intro c hc hstem
    rw [String.toList_append, List.mem_append, not_or]
    exact ⟨hstem, notMem_toString hc n⟩
  unfold hostsOf
  dsimp only
  rw [host_poolArg (hnone _ (by decide) (by decide)), if_neg (hnone _ (by decide) (by decide)), String.ofList_toList]

/-- It reads the arguments as MinIO does. -/
theorem ellipsis_hostsOf (port drives : String) : Ellipsis hostsOf port drives :=
  ⟨fun n _ => hostsOf_wide n port drives, fun n _ => hostsOf_single n port drives⟩

theorem nodes_of {nodes : List (ℕ × String)} (h : (nodes.map Prod.fst).Nodup ∧ (∀ p ∈ nodes, 1 ≤ p.1) ∧
    ∀ p ∈ nodes, p.2 ≠ "" ∧ '\n' ∉ p.2.toList) : Nodes nodes := ⟨h.1, h.2.1, h.2.2⟩

/-- A slot is free, and a later node has joined. -/
theorem aliases_cover_holes : ∃ fuel out,
    renderHaPool id fuel (toString 3) "9000" "9001" "4"
      (peersOf [(1, "10.0.0.1"), (3, "10.0.0.3"), (5, "10.0.0.5")]) = some out ∧
    Mapped hostsOf [(1, "10.0.0.1"), (3, "10.0.0.3"), (5, "10.0.0.5")] out ∧
    (∀ p ∈ [(1, "10.0.0.1"), (3, "10.0.0.3"), (5, "10.0.0.5")], Reaches hostsOf out p.2 p.1) ∧
    ((∀ p ∈ [(1, "10.0.0.1"), (3, "10.0.0.3"), (5, "10.0.0.5")], ∃! k, Reaches hostsOf out p.2 k) ↔
      ([(1, "10.0.0.1"), (3, "10.0.0.3"), (5, "10.0.0.5")].map Prod.snd).Nodup ∧
        ("127.0.0.1" ∈ [(1, "10.0.0.1"), (3, "10.0.0.3"), (5, "10.0.0.5")].map Prod.snd →
          ∀ k : ℕ, 1 ≤ k → k ≤ 3 → k ∈ [(1, "10.0.0.1"), (3, "10.0.0.3"), (5, "10.0.0.5")].map Prod.fst)) :=
  aliases_cover
    ⟨nodes_of (by decide), fun _ => .refl _, ellipsis_hostsOf "9000" "4", by decide, by decide, by decide, by decide⟩
    (by decide) "9001"

theorem WidePool.rendered_of {order : List String → List String} {hosts : String → List String}
    {port consolePort drives : String} {nodes : List (ℕ × String)} {n : ℕ}
    (h : WidePool order hosts port drives nodes n) (hcovers : Covers order hosts port consolePort drives nodes n) :
    ∃ out, Rendered order hosts port drives nodes n out ∧ ∀ p ∈ nodes, ∃! k, Reaches hosts out p.2 k := by
  obtain ⟨fuel, out, hout, -, hunique⟩ := hcovers
  obtain ⟨out', hout', hrendered⟩ := h.renders consolePort
  rw [hout'] at hout
  split_ifs at hout
  cases hout
  exact ⟨out, hrendered, hunique⟩

/-- Two nodes with one ip, a node with the ip of a free slot, a node whose number is negative
in the shell, and a pool whose slots the shell does not stop counting. -/
theorem uncovered_clusters :
    (WidePool id hostsOf "9000" "4" [(1, "10.0.0.1"), (2, "10.0.0.1")] 2 ∧
      ¬Covers id hostsOf "9000" "9001" "4" [(1, "10.0.0.1"), (2, "10.0.0.1")] 2) ∧
    (WidePool id hostsOf "9000" "4" [(1, "127.0.0.1")] 2 ∧
      ¬Covers id hostsOf "9000" "9001" "4" [(1, "127.0.0.1")] 2) ∧
    (WidePool id hostsOf "9000" "4" [(2 ^ 63, "10.0.0.1")] 2 ∧
      ¬Covers id hostsOf "9000" "9001" "4" [(2 ^ 63, "10.0.0.1")] 2) ∧
    ¬Covers id hostsOf "9000" "9001" "4" [] (2 ^ 63 - 1) := by
  have hpool : ∀ nodes : List (ℕ × String), ((nodes.map Prod.fst).Nodup ∧ (∀ p ∈ nodes, 1 ≤ p.1) ∧
      ∀ p ∈ nodes, p.2 ≠ "" ∧ '\n' ∉ p.2.toList) → WidePool id hostsOf "9000" "4" nodes 2 := fun nodes h =>
    ⟨nodes_of h, fun _ => .refl _, ellipsis_hostsOf "9000" "4", by decide, by decide, by decide, by decide⟩
  have hshared := hpool [(1, "10.0.0.1"), (2, "10.0.0.1")] (by decide)
  have hown := hpool [(1, "127.0.0.1")] (by decide)
  have hnegative := hpool [(2 ^ 63, "10.0.0.1")] (by decide)
  refine ⟨⟨hshared, fun hcovers => ?_⟩, ⟨hown, fun hcovers => ?_⟩, ⟨hnegative, fun hcovers => ?_⟩, fun hcovers => ?_⟩
  · obtain ⟨out, hrendered, hunique⟩ := hshared.rendered_of hcovers
    exact absurd ((hrendered.unique_iff (by decide)).mp hunique).1 (by decide)
  · obtain ⟨out, hrendered, hunique⟩ := hown.rendered_of hcovers
    have hjoined := ((hrendered.unique_iff (by decide)).mp hunique).2 (by decide) 2 (by decide) (by decide)
    exact absurd hjoined (by decide)
  · obtain ⟨out, hrendered, hunique⟩ := hnegative.rendered_of hcovers
    obtain ⟨k, hreach, -⟩ := hunique _ List.mem_cons_self
    obtain ⟨hslot | hlater, haddress⟩ := hrendered.reaches_iff.mp hreach
    · have hfree : k ∉ [(2 ^ 63, "10.0.0.1")].map Prod.fst := by
        rw [List.map_singleton, List.mem_singleton]
        omega
      rw [addressOf_free hfree] at haddress
      exact absurd haddress (by decide)
    · exact absurd hlater (by rw [show laterNodes 2 [(2 ^ 63, "10.0.0.1")] = [] by decide]; exact List.not_mem_nil)
  · obtain ⟨fuel, out, hout, -⟩ := hcovers
    rw [renderHaPool_greatest] at hout
    cases hout

end MilvusOnprem.MinioAliases
