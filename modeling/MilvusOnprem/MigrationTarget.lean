import MilvusOnprem.PeerWatchdog

/-!
# Where a migration goes

`_maybe_auto_migrate_pulsar` takes the first of the other peers in the order of
the nodes. Their miss counters are in the same watchdog, and it does not look at
them.
-/
namespace MilvusOnprem.MigrationTarget

open MilvusOnprem.Topology OrderedPeers PeerWatchdog ClusterEnv
open Joining (nodeSortKey keyLe)

/-- A peer of the mirror other than the down one, with an ip. -/
def Other (peers : List (String × Json)) (downName n : String) : Prop :=
  n ≠ downName ∧ ∃ info, (n, info) ∈ peers ∧ (usedIp info).isSome = true

/-- The peer has missed as many probes as make it count as down. -/
def countsAsDown (c : WatchConfig) (w : Watch) (n : String) : Prop :=
  c.peerFailureThreshold ≤ w.consecutiveMisses n

/-- The lowest of some nodes. -/
def Lowest (nodes : String → Prop) (n : String) : Prop :=
  nodes n ∧ ∀ m, nodes m → keyLe (nodeSortKey n) (nodeSortKey m) = true

theorem Lowest.unique {nodes : String → Prop} {n m : String} (hn : Lowest nodes n)
    (hm : Lowest nodes m) : n = m :=
  congrArg Prod.snd (keyLe_antisymm (hn.2 m hm.1) (hm.2 n hn.1))

theorem mem_survivors {peers : List (String × Json)} {downName : String} {l : List String}
    (h : survivors downName peers = .ok l) {n : String} : n ∈ l ↔ Other peers downName n := by
  unfold survivors at h
  cases hips : withIps (peers.filter fun p => p.1 ≠ downName) with
  | error e =>
      rw [hips] at h
      cases h
  | ok ips =>
      rw [hips] at h
      cases h
      rw [List.mem_insertionSort, withIps_ok hips]
      simp only [List.mem_map, List.mem_filterMap, List.mem_filter, decide_eq_true_eq, Other,
        Option.map_eq_some_iff, Option.isSome_iff_exists]
      constructor
      · rintro ⟨-, ⟨e, ⟨hmem, hne⟩, ip, hip, rfl⟩, rfl⟩
        exact ⟨hne, e.2, hmem, ip, hip⟩
      · rintro ⟨hne, info, hmem, ip, hip⟩
        exact ⟨(n, ip), ⟨(n, info), ⟨hmem, hne⟩, ip, hip, rfl⟩, rfl⟩

/-- The first of the survivors is the lowest of the other peers. -/
theorem lowest_of_survivors {peers : List (String × Json)} {downName t : String} {l : List String}
    (h : survivors downName peers = .ok (t :: l)) : Lowest (Other peers downName) t := by
  refine ⟨(mem_survivors h).mp List.mem_cons_self, fun m hm => ?_⟩
  have hsorted : (t :: l).Pairwise fun a b => keyLe (nodeSortKey a) (nodeSortKey b) = true := by
    have htotal : Std.Total fun a b : String => keyLe (nodeSortKey a) (nodeSortKey b) = true :=
      ⟨fun a b => keyLe_total _ _⟩
    have htrans : IsTrans String fun a b => keyLe (nodeSortKey a) (nodeSortKey b) = true :=
      ⟨fun a b c => keyLe_trans⟩
    unfold survivors at h
    cases hips : withIps (peers.filter fun p => p.1 ≠ downName) with
    | error e =>
        rw [hips] at h
        cases h
    | ok ips =>
        rw [hips] at h
        rw [← Except.ok.inj h]
        exact List.pairwise_insertionSort _ _
  rcases List.mem_cons.mp ((mem_survivors h).mpr hm) with rfl | hmem
  · exact (keyLe_total _ _).elim id id
  · exact (List.pairwise_cons.mp hsorted).1 m hmem

/-- Every other peer of the mirror has an info with fields. -/
def Readable (peers : List (String × Json)) (downName : String) : Prop :=
  ∀ e ∈ peers, e.1 ≠ downName → ∃ fields, e.2 = .obj fields

theorem survivors_ok {peers : List (String × Json)} {downName : String}
    (h : Readable peers downName) : ∃ l, survivors downName peers = .ok l := by
  have hothers : ∀ e ∈ peers.filter fun p => p.1 ≠ downName, ∃ fields, e.2 = .obj fields := by
    intro e he
    obtain ⟨hmem, hne⟩ := List.mem_filter.mp he
    exact h e hmem (of_decide_eq_true hne)
  obtain ⟨ips, hips⟩ := withIps_objects hothers
  exact ⟨_, by rw [survivors, hips]; rfl⟩

theorem readable_of_survivors {peers : List (String × Json)} {downName : String} {l : List String}
    (h : survivors downName peers = .ok l) : Readable peers downName := by
  have hall : ∀ {es : List (String × Json)} {ips : List (String × String)}, withIps es = .ok ips →
      ∀ e ∈ es, ∃ fields, e.2 = .obj fields := by
    intro es
    induction es with
    | nil => exact fun _ e he => absurd he List.not_mem_nil
    | cons x rest ih =>
        intro ips hips
        obtain ⟨name, info⟩ := x
        cases hrest : withIps rest with
        | error e => cases info <;> simp [withIps, infoGet, hrest, bind, Except.bind] at hips
        | ok ips' =>
            cases info with
            | obj fields => exact List.forall_mem_cons.mpr ⟨⟨fields, rfl⟩, ih hrest⟩
            | _ => cases hips
  intro e he hne
  unfold survivors at h
  cases hips : withIps (peers.filter fun p => p.1 ≠ downName) with
  | error x =>
      rw [hips] at h
      cases h
  | ok ips => exact hall hips e (List.mem_filter.mpr ⟨he, decide_eq_true hne⟩)

/-- What a submission should name: the down peer is the host of Pulsar, and the
target is the lowest other peer that is not down itself. Without such a peer
nothing is submitted. -/
def PicksSurvivor (c : WatchConfig) (w : Watch) (file : Option String)
    (peers : List (String × Json)) (downName : String) : Prop :=
  let eligible := fun n => Other peers downName n ∧ ¬countsAsDown c w n
  (∀ target, migrationTarget file peers downName = .ok (some target) →
    readClusterEnvValue file "PULSAR_HOST" "node-1" = downName ∧ Lowest eligible target) ∧
  ((∀ n, ¬eligible n) → ∀ target, migrationTarget file peers downName ≠ .ok (some target))

/-- A submission goes to the lowest of the other peers. -/
theorem migrationTarget_eq_some {file : Option String} {peers : List (String × Json)}
    {downName target : String} :
    migrationTarget file peers downName = .ok (some target) ↔
      hostsPulsar file downName = true ∧ Readable peers downName ∧
        Lowest (Other peers downName) target := by
  unfold migrationTarget
  constructor
  · intro h
    split_ifs at h with hhosts
    · cases hs : survivors downName peers with
      | error e =>
          rw [hs] at h
          cases h
      | ok l =>
          rw [hs] at h
          cases l with
          | nil => cases h
          | cons t l =>
              cases h
              exact ⟨hhosts, readable_of_survivors hs, lowest_of_survivors hs⟩
    · cases h
  · rintro ⟨hhosts, hreadable, hlowest⟩
    obtain ⟨l, hl⟩ := survivors_ok hreadable
    rw [if_pos hhosts, hl]
    cases l with
    | nil => exact absurd ((mem_survivors hl).mpr hlowest.1) List.not_mem_nil
    | cons t l =>
        rw [(lowest_of_survivors hl).unique hlowest]
        rfl

/-- The target is the right one exactly when the lowest other peer is not down
itself, wherever the watchdog gets as far as a submission. -/
theorem picksSurvivor_iff (c : WatchConfig) (w : Watch) (file : Option String)
    (peers : List (String × Json)) (downName : String) :
    PicksSurvivor c w file peers downName ↔
      (hostsPulsar file downName = true → Readable peers downName →
        ∀ n, Lowest (Other peers downName) n → ¬countsAsDown c w n) := by
  constructor
  · rintro ⟨hpicks, -⟩ hhosts hreadable n hn
    exact (hpicks n (migrationTarget_eq_some.mpr ⟨hhosts, hreadable, hn⟩)).2.1.2
  · intro h
    have hup : ∀ target, migrationTarget file peers downName = .ok (some target) →
        Lowest (fun n => Other peers downName n ∧ ¬countsAsDown c w n) target := by
      intro target htarget
      obtain ⟨hhosts, hreadable, hlowest⟩ := migrationTarget_eq_some.mp htarget
      exact ⟨⟨hlowest.1, h hhosts hreadable target hlowest⟩, fun m hm => hlowest.2 m hm.1⟩
    refine ⟨fun target htarget => ⟨?_, hup target htarget⟩, fun hnone target htarget => ?_⟩
    · have hhosts := (migrationTarget_eq_some.mp htarget).1
      simp only [hostsPulsar, Bool.and_eq_true, decide_eq_true_eq] at hhosts
      exact hhosts.2
    · exact hnone target (hup target htarget).1

/-- The third peer is up, the other two are not. -/
def twoDown : Watch := ⟨fun n => if n = "node-3" then 0 else 30, fun _ => none, []⟩

def watchConfig : WatchConfig := ⟨"node-3", "10.0.0.3", 6, true, 30⟩

def threePeers : List (String × Json) :=
  [("node-1", .obj [("ip", .str "10.0.0.1")]), ("node-2", .obj [("ip", .str "10.0.0.2")]),
    ("node-3", .obj [("ip", .str "10.0.0.3")])]

/-- The migration goes to a peer that is down. -/
theorem target_down :
    migrationTarget (some "MQ_TYPE=pulsar\n") threePeers "node-1" = .ok (some "node-2") ∧
      countsAsDown watchConfig twoDown "node-2" ∧
      ¬PicksSurvivor watchConfig twoDown (some "MQ_TYPE=pulsar\n") threePeers "node-1" := by
  have htarget : migrationTarget (some "MQ_TYPE=pulsar\n") threePeers "node-1" =
      .ok (some "node-2") := by
    decide +kernel
  have hdown : countsAsDown watchConfig twoDown "node-2" := by
    unfold countsAsDown
    decide
  exact ⟨htarget, hdown, fun h => (h.1 "node-2" htarget).2.1.2 hdown⟩

end MilvusOnprem.MigrationTarget
