import MilvusOnprem.Cluster

/-!
# Node names of live peers

Two live peers with different ips have different names, in every run that keeps
three conditions: a join's create meets a free key or the joiner's own entry, a
join reads the topology while the bootstrap peer's entry is there, and no delete
hits a name that a join in progress or another live peer stands on. Each of the
three can fail in the code, which only logs the result of its create.
-/
namespace MilvusOnprem.Cluster

open EtcdClient MilvusOnprem.Topology Joining RemoveNode

def UniqueNames (w : World) : Prop :=
  ∀ p ∈ w.live, ∀ q ∈ w.live, p.name = q.name → p.ip = q.ip

/-- The name a call has chosen. -/
def chosenName : JoinPc → Option String
  | .rejoining name _ | .stamping name _ | .creating name _ _ | .building name _
  | .adding name _ => some name
  | _ => none

/-- The bootstrap peer is gone, or its entry is in the topology. -/
def bootstrapListed (w : World) : Bool :=
  !w.bootstrapLive || peerIp w.etcd.kv w.bootstrap.nodeName = some w.bootstrap.localIp

/-- The condition on an attempt of a join that reaches etcd. -/
def joinKeeps (w : World) (id : ℕ) (slot : JoinSlot) : Bool :=
  match slot.thread.pc with
  | .reading => bootstrapListed w
  | .creating name _ _ =>
      w.etcd.kv.get (TOPOLOGY_PREFIX ++ name) = none ||
        peerIp w.etcd.kv name = some slot.call.joinerIp
  | .rollingBack name _ =>
      w.live.all (fun p => p.name ≠ name) && unclaimed w (some id) name
  | _ => true

/-- The condition on an attempt of a job that reaches etcd. -/
def removalKeeps (w : World) (slot : RemovalSlot) : Bool :=
  match slot.thread.pc with
  | .deleting t =>
      (w.etcd.kv.get (TOPOLOGY_PREFIX ++ t.name) = none ||
          peerIp w.etcd.kv t.name = some slot.job.ip) &&
        unclaimed w none t.name
  | _ => true

/-- The three conditions. -/
def keepsNames (w : World) : Act → Bool
  | .joinAttempt id _ a =>
      !a.reaches || (w.joins.get id).all (joinKeeps w id)
  | .removalAttempt id a =>
      !a.reaches || (w.removals.get id).all (removalKeeps w)
  | _ => true

instance (w : World) : Decidable (UniqueNames w) :=
  inferInstanceAs (Decidable (∀ p ∈ w.live, ∀ q ∈ w.live, p.name = q.name → p.ip = q.ip))

/-! ## The invariant -/

/-- What holds of a call in progress: the entry it stands on is in the topology,
the value it is about to write carries its ip, and it has not chosen the
bootstrap peer's name unless it has that peer's ip. -/
structure Fits (w : World) (c : JoinCall) (pc : JoinPc) : Prop where
  claim : ∀ name, claimedName pc = some name → peerIp w.etcd.kv name = some c.joinerIp
  value : ∀ name parsed value, pc = .creating name parsed value → textIp value = some c.joinerIp
  chosen : w.bootstrapLive = true → chosenName pc = some w.bootstrap.nodeName →
    c.joinerIp = w.bootstrap.localIp

/-- Every holder's entry is in the topology, and no holder has the bootstrap
peer's name without its ip. -/
structure Inv (w : World) : Prop where
  holder : ∀ p ∈ w.holders, peerIp w.etcd.kv p.name = some p.ip
  bootstrap : w.bootstrapLive = true → ∀ p ∈ w.holders, p.name = w.bootstrap.nodeName →
    p.ip = w.bootstrap.localIp
  joins : ∀ id slot, w.joins.get id = some slot → Fits w slot.call slot.thread.pc

theorem Inv.uniqueNames {w : World} (h : Inv w) : UniqueNames w := by
  have hlive : ∀ p ∈ w.live, p ∈ w.holders ∨
      w.bootstrapLive = true ∧ p = ⟨w.bootstrap.nodeName, w.bootstrap.localIp⟩ := by
    intro p hp
    rcases List.mem_append.mp hp with hp | hp
    · split_ifs at hp with hb
      · exact .inr ⟨hb, List.mem_singleton.mp hp⟩
      · cases hp
    · exact .inl hp
  intro p hp q hq hname
  rcases hlive p hp with hp | ⟨hb, hp⟩
  · rcases hlive q hq with hq | ⟨hb, hq⟩
    · have hpi := h.holder p hp
      rw [hname, h.holder q hq] at hpi
      exact (Option.some.inj hpi).symm
    · subst hq
      exact h.bootstrap hb p hp hname
  · rcases hlive q hq with hq | ⟨-, hq⟩
    · subst hp
      exact (h.bootstrap hb q hq hname.symm).symm
    · rw [hp, hq]

theorem inv_fresh (etcd : Etcd) (isLeader : ℕ → Bool) (bootstrap : DaemonConfig) :
    Inv (fresh etcd isLeader bootstrap) where
  holder := fun p hp => by cases hp
  bootstrap := fun _ p hp => by cases hp
  joins := fun id slot h => by cases h

/-- A call that has chosen no name fits. -/
theorem fits_unchosen {w : World} {c : JoinCall} {pc : JoinPc} (h : chosenName pc = none) :
    Fits w c pc := by
  constructor
  · intro name hname
    cases pc <;> simp [chosenName, claimedName] at h hname
  · intro name parsed value hpc
    rw [hpc] at h
    cases h
  · intro _ hname
    rw [h] at hname
    cases hname

/-- What the invariant does not look at may change, and peers and calls may
disappear. -/
theorem Inv.weaken {w v : World} (h : Inv w) (hkv : v.etcd.kv = w.etcd.kv)
    (hlive : v.bootstrapLive = true → w.bootstrapLive = true) (hboot : v.bootstrap = w.bootstrap)
    (hholders : ∀ p ∈ v.holders, p ∈ w.holders)
    (hjoins : ∀ id slot, v.joins.get id = some slot → w.joins.get id = some slot) : Inv v := by
  refine ⟨?_, ?_, ?_⟩
  · intro p hp
    rw [hkv]
    exact h.holder p (hholders p hp)
  · intro hb p hp
    rw [hboot]
    exact h.bootstrap (hlive hb) p (hholders p hp)
  · intro id slot hslot
    have hf := h.joins id slot (hjoins id slot hslot)
    refine ⟨?_, hf.value, ?_⟩
    · rw [hkv]
      exact hf.claim
    · intro hb
      rw [hboot]
      exact hf.chosen (hlive hb)

/-- A store that keeps every entry keeps the invariant. -/
theorem Inv.grow {w : World} (h : Inv w) {s : Etcd}
    (hkv : ∀ name ip, peerIp w.etcd.kv name = some ip → peerIp s.kv name = some ip) :
    Inv { w with etcd := s } where
  holder := fun p hp => hkv _ _ (h.holder p hp)
  bootstrap := h.bootstrap
  joins := fun id slot hslot =>
    have hf := h.joins id slot hslot
    ⟨fun name hname => hkv _ _ (hf.claim name hname), hf.value, hf.chosen⟩

/-- A call moves to a point that fits; a result it returns has its entry in the
topology. -/
theorem Inv.move {w : World} (h : Inv w) {id : ℕ} {slot : JoinSlot} {t : Thread JoinPc}
    (hfits : Fits w slot.call t.pc)
    (hresult : ∀ r, t.pc = .returned r → peerIp w.etcd.kv r.nodeName = some r.localIp ∧
      (w.bootstrapLive = true → r.nodeName = w.bootstrap.nodeName →
        r.localIp = w.bootstrap.localIp)) :
    Inv (moveJoin w id slot w.etcd t) := by
  have hnew : ∀ p ∈ newHolder t.pc, peerIp w.etcd.kv p.name = some p.ip ∧
      (w.bootstrapLive = true → p.name = w.bootstrap.nodeName → p.ip = w.bootstrap.localIp) := by
    intro p hp
    unfold newHolder at hp
    split at hp
    · next r hr =>
        rw [List.mem_singleton.mp hp]
        exact hresult r hr
    · cases hp
  refine ⟨?_, ?_, ?_⟩
  · intro p hp
    rcases List.mem_append.mp hp with hp | hp
    · exact (hnew p hp).1
    · exact h.holder p hp
  · intro hb p hp
    rcases List.mem_append.mp hp with hp | hp
    · exact (hnew p hp).2 hb
    · exact h.bootstrap hb p hp
  · intro id' slot' hget
    change (w.joins.put id { slot with thread := t }).get id' = some slot' at hget
    rw [OrderedMap.get_put] at hget
    split_ifs at hget with hid
    · cases hget
      exact ⟨hfits.claim, hfits.value, hfits.chosen⟩
    · have hf := h.joins id' slot' hget
      exact ⟨hf.claim, hf.value, hf.chosen⟩

/-! ## The steps of a call -/

/-- A call on its own keeps fitting, and returns only the name it stands on. -/
theorem Fits.proceed {w : World} {c : JoinCall} {pc qc : JoinPc} {i : JoinCall.Input}
    (h : Fits w c pc) (hstep : c.Proceeds pc i qc) :
    Fits w c qc ∧ ∀ r, qc = .returned r → peerIp w.etcd.kv r.nodeName = some r.localIp ∧
      (w.bootstrapLive = true → r.nodeName = w.bootstrap.nodeName →
        r.localIp = w.bootstrap.localIp) := by
  cases hstep with
  | lock now => exact ⟨fits_unchosen rfl, fun r hr => by cases hr⟩
  | poll hnow => exact ⟨fits_unchosen rfl, fun r hr => by cases hr⟩
  | timeout hnow => exact ⟨fits_unchosen rfl, fun r hr => by cases hr⟩
  | rejoined henv =>
      refine ⟨fits_unchosen rfl, ?_⟩
      intro r hr
      cases hr
      refine ⟨h.claim _ rfl, ?_⟩
      intro hb hname
      exact h.chosen hb (congrArg some hname)
  | rejoinFailed => exact ⟨fits_unchosen rfl, fun r hr => by cases hr⟩
  | stamp =>
      refine ⟨⟨(fun name hname => by cases hname), ?_, h.chosen⟩, fun r hr => by cases hr⟩
      intro name parsed value hpc
      cases hpc
      exact c.textIp_infoValue _ _
  | built henv =>
      exact ⟨⟨h.claim, (fun name parsed value hpc => by cases hpc), h.chosen⟩,
        fun r hr => by cases hr⟩
  | buildFailed he => exact ⟨fits_unchosen rfl, fun r hr => by cases hr⟩

/-- The point a call reaches once it has read the topology fits, if the
bootstrap peer's entry was there. -/
theorem fits_chosen {w : World} {c : JoinCall} (hb : bootstrapListed w = true) :
    Fits w c (c.chosen (parseTopology (withPrefix TOPOLOGY_PREFIX w.etcd.kv))) := by
  rcases c.chosen_cases (parseTopology (withPrefix TOPOLOGY_PREFIX w.etcd.kv)) with
    ⟨e, he⟩ | ⟨name, hfind, he⟩ | ⟨hfind, he⟩
  · rw [he]
    exact fits_unchosen rfl
  · rw [he]
    obtain ⟨info, hm, hip⟩ := findNodeNameByIp_some hfind
    have hpeer : peerIp w.etcd.kv name = some c.joinerIp := by
      rw [peerIp, mem_parseTopology.mp hm]
      exact hip
    refine ⟨?_, (fun name parsed value hpc => by cases hpc), ?_⟩
    · intro name' hname'
      cases hname'
      exact hpeer
    · intro hlive hname
      cases hname
      simp only [bootstrapListed, hlive, Bool.not_true, Bool.false_or, decide_eq_true_eq] at hb
      rw [hpeer] at hb
      exact Option.some.inj hb
  · rw [he]
    refine ⟨(fun name hname => by cases hname), (fun name parsed value hpc => by cases hpc), ?_⟩
    intro hlive hname
    simp only [bootstrapListed, hlive, Bool.not_true, Bool.false_or, decide_eq_true_eq] at hb
    obtain ⟨info, hinfo, -⟩ := Option.bind_eq_some_iff.mp hb
    have hm := mem_parseTopology.mpr hinfo
    have hmem := List.mem_map_of_mem (f := Prod.fst) hm
    have hne := allocateNextName_notMem
      ((parseTopology (withPrefix TOPOLOGY_PREFIX w.etcd.kv)).map Prod.fst)
    rw [Option.some.inj hname] at hne
    exact absurd hmem hne

/-- Deleting an entry that neither a holder nor a call stands on. -/
theorem Inv.erase {w : World} (h : Inv w) {name : String}
    (hholders : ∀ p ∈ w.holders, p.name ≠ name)
    (hclaims : ∀ id slot, w.joins.get id = some slot → claimedName slot.thread.pc ≠ some name) :
    Inv { w with etcd := ⟨w.etcd.kv.erase (TOPOLOGY_PREFIX ++ name), w.etcd.members⟩ } where
  holder := by
    intro p hp
    have hne := hholders p hp
    change peerIp (w.etcd.kv.erase (TOPOLOGY_PREFIX ++ name)) p.name = some p.ip
    rw [peerIp_erase, if_neg hne.symm]
    exact h.holder p hp
  bootstrap := h.bootstrap
  joins := by
    intro id slot hslot
    have hf := h.joins id slot hslot
    refine ⟨?_, hf.value, hf.chosen⟩
    intro m hm
    have hne : name ≠ m := by
      intro he
      exact hclaims id slot hslot (he ▸ hm)
    change peerIp (w.etcd.kv.erase (TOPOLOGY_PREFIX ++ name)) m = some slot.call.joinerIp
    rw [peerIp_erase, if_neg hne]
    exact hf.claim m hm

theorem holders_subset_live {w : World} {p : Peer} (hp : p ∈ w.holders) : p ∈ w.live :=
  List.mem_append_right _ hp

/-- What a call's request does to the store keeps the invariant. -/
theorem Inv.served {w : World} (h : Inv w) {id newId : ℕ} {slot : JoinSlot} {a : Attempt}
    {r : Request} (hslot : w.joins.get id = some slot)
    (hkeeps : a.reaches = true → joinKeeps w id slot = true)
    (hr : slot.call.request slot.thread.pc = some r) :
    Inv { w with etcd := if a.reaches then (serve newId w.etcd r).1 else w.etcd } := by
  split_ifs with ha
  · have hk := hkeeps ha
    obtain ⟨d, c, pc, tries⟩ := slot
    cases pc with
    | polling deadline =>
        cases hr
        exact h
    | reading =>
        cases hr
        exact h
    | creating name parsed value =>
        cases hr
        exact h.grow (fun m ip => putIfAbsent_grows newId w.etcd name value)
    | adding name env =>
        cases hr
        refine h.grow ?_
        intro m ip hm
        simp only [serve]
        split_ifs
        · exact hm
        · exact hm
    | rollingBack name cause =>
        cases hr
        simp only [joinKeeps, Bool.and_eq_true, List.all_eq_true, decide_eq_true_eq] at hk
        refine h.erase (fun p hp => hk.1 p (holders_subset_live hp)) ?_
        intro id' slot' hslot'
        by_cases hid : id' = id
        · subst hid
          rw [hslot] at hslot'
          cases hslot'
          intro hname
          cases hname
        · exact unclaimed_spec hk.2 hslot' (fun he => hid (Option.some.inj he))
    | _ => cases hr
  · exact h

/-- A call's attempt that keeps the conditions keeps the invariant. -/
theorem Inv.joinAttempt {w : World} (h : Inv w) {id newId : ℕ} {slot : JoinSlot} {a : Attempt}
    {s : Etcd} {t : Thread JoinPc} (hslot : w.joins.get id = some slot)
    (hkeeps : a.reaches = true → joinKeeps w id slot = true)
    (hstep : slot.call.Attempts newId slot.thread.tries w.etcd slot.thread.pc a s t.pc) :
    Inv (moveJoin w id slot s t) := by
  have hserved : ∀ r, slot.call.request slot.thread.pc = some r →
      Inv { w with etcd := if a.reaches then (serve newId w.etcd r).1 else w.etcd } :=
    fun r => h.served hslot hkeeps
  have hf := h.joins id slot hslot
  obtain ⟨d, c, pc, tries⟩ := slot
  obtain ⟨qc, tries'⟩ := t
  cases hstep with
  | again hr =>
      have h' := hserved _ hr
      refine h'.move (h'.joins id _ hslot) ?_
      intro r hpc
      cases hpc
      cases hr
  | pollFailed => exact h.move (fits_unchosen rfl) (fun r hr => by cases hr)
  | polled hall => exact h.move (fits_unchosen rfl) (fun r hr => by cases hr)
  | unhealthy hall => exact h.move (fits_unchosen rfl) (fun r hr => by cases hr)
  | readFailed => exact h.move (fits_unchosen rfl) (fun r hr => by cases hr)
  | read =>
      refine h.move (fits_chosen (hkeeps rfl)) ?_
      intro r hr
      rcases c.chosen_cases (parseTopology (withPrefix TOPOLOGY_PREFIX w.etcd.kv)) with
        ⟨e, he⟩ | ⟨name, -, he⟩ | ⟨-, he⟩
      all_goals
        change c.chosen _ = _ at hr
        rw [he] at hr
        cases hr
  | createFailed hup =>
      exact (hserved _ rfl).move (fits_unchosen rfl) (fun r hr => by cases hr)
  | @created name parsed value =>
      have hk := hkeeps rfl
      simp only [joinKeeps, Bool.or_eq_true, decide_eq_true_eq] at hk
      refine (hserved _ rfl).move ⟨?_, (fun name parsed value hpc => by cases hpc), hf.chosen⟩
        (fun r hr => by cases hr)
      intro name' hname'
      cases hname'
      exact putIfAbsent_creates newId (hf.value _ _ _ rfl) hk
  | addFailed => exact (hserved _ rfl).move (fits_unchosen rfl) (fun r hr => by cases hr)
  | @added name env hurl =>
      have h' : Inv { w with etcd := ⟨w.etcd.kv, w.etcd.members ++ [⟨newId, "", [c.peerUrl]⟩]⟩ } :=
        h.grow (fun m ip hm => hm)
      refine h'.move (fits_unchosen rfl) ?_
      intro r hr
      cases hr
      refine ⟨hf.claim name rfl, ?_⟩
      intro hb hname
      exact hf.chosen hb (congrArg some hname)
  | rolledBack hend => exact (hserved _ rfl).move (fits_unchosen rfl) (fun r hr => by cases hr)

/-- A job's attempt that keeps the conditions keeps the invariant. -/
theorem Inv.removalAttempt {w : World} (h : Inv w) {slot : RemovalSlot} {a : Attempt} {s : Etcd}
    {t : Thread RemovePc} {removals : OrderedMap ℕ RemovalSlot}
    (hkeeps : a.reaches = true → removalKeeps w slot = true)
    (hstep : slot.job.client.attempt 0 w.etcd slot.thread a = some (s, t)) :
    Inv { w with
      etcd := s
      removals := removals
      bootstrapLive := w.bootstrapLive && w.bootstrap.localIp ∉ removedIps slot a
      holders := w.holders.filter fun p => p.ip ∉ removedIps slot a } := by
  obtain ⟨r, hr, hs, -⟩ := Client.attempt_cases _ hstep
  have hfewer : Inv { w with
      removals := removals
      bootstrapLive := w.bootstrapLive && w.bootstrap.localIp ∉ removedIps slot a
      holders := w.holders.filter fun p => p.ip ∉ removedIps slot a } := by
    refine h.weaken rfl ?_ rfl ?_ (fun id slot hslot => hslot)
    · intro hb
      exact (Bool.and_eq_true_iff.mp hb).1
    · intro p hp
      exact (List.mem_filter.mp hp).1
  by_cases ha : a.reaches = true
  · rw [if_pos ha] at hs
    have hk := hkeeps ha
    rw [hs]
    obtain ⟨d, j, pc, tries⟩ := slot
    cases pc with
    | deleting target =>
        cases hr
        simp only [removalKeeps, Bool.and_eq_true, Bool.or_eq_true, decide_eq_true_eq] at hk
        refine hfewer.erase ?_ (fun id' slot' hslot' => unclaimed_spec hk.2 hslot' (by simp))
        intro p hp hname
        obtain ⟨hp, hip⟩ := List.mem_filter.mp hp
        have hpeer := h.holder p hp
        rw [hname] at hpeer
        rcases hk.1 with hnone | hsome
        · rw [peerIp_of_get_none hnone] at hpeer
          cases hpeer
        · rw [hsome] at hpeer
          simp [removedIps, ha, Option.some.inj hpeer] at hip
    | removing target id =>
        cases hr
        refine hfewer.grow ?_
        intro m ip hm
        simp only [serve]
        split_ifs
        · exact hm
        · exact hm
    | resolving | settling | surveying | leaderRead | listing =>
        cases hr
        exact hfewer
    | _ => cases hr
  · rw [if_neg ha] at hs
    rw [hs]
    exact hfewer

/-- Every step that keeps the conditions keeps the invariant. -/
theorem inv_step {w v : World} {act : Act} (h : Inv w) (hkeeps : keepsNames w act = true)
    (hstep : step w act = some v) : Inv v := by
  cases steps_of_step hstep with
  | setLeader | startRemoval | removalInput | bootstrapStarts | registerTime | memberStarts =>
      exact h.weaken rfl (fun hb => hb) rfl (fun p hp => hp) (fun id slot hslot => hslot)
  | @startJoin id d call hleader hfree =>
      refine ⟨h.holder, h.bootstrap, ?_⟩
      intro id' slot' hget
      change (w.joins.put id ⟨d, call, ⟨call.start, 0⟩⟩).get id' = some slot' at hget
      rw [OrderedMap.get_put] at hget
      split_ifs at hget with hid
      · cases hget
        apply fits_unchosen
        unfold JoinCall.start
        split_ifs <;> rfl
      · have hf := h.joins id' slot' hget
        exact ⟨hf.claim, hf.value, hf.chosen⟩
  | @joinInput id i slot pc hslot hlock hpc =>
      have hnext := (h.joins id slot hslot).proceed hpc
      exact h.move hnext.1 hnext.2
  | @joinAttempt id newId a slot s t hslot hnew ht =>
      refine h.joinAttempt hslot ?_ ht
      intro ha
      simpa [keepsNames, ha, hslot] using hkeeps
  | @removalAttempt id a slot s t hslot ht =>
      refine h.removalAttempt ?_ ht
      intro ha
      simpa [keepsNames, ha, hslot] using hkeeps
  | crash =>
      exact h.weaken rfl (fun hb => hb) rfl (fun p hp => hp)
        (fun id slot hslot => (OrderedMap.get_filterValues.mp hslot).1)
  | @registerAttempt a s t ht =>
      obtain ⟨r, hr, hs, -⟩ := Client.attempt_cases _ ht
      have hgrow : ∀ name ip, peerIp w.etcd.kv name = some ip → peerIp s.kv name = some ip := by
        intro name ip hp
        rw [hs]
        split_ifs
        · cases hpc : w.registration.pc with
          | looking =>
              rw [hpc] at hr
              cases hr
              exact hp
          | writing info =>
              rw [hpc] at hr
              cases hr
              exact putIfAbsent_grows 0 w.etcd w.bootstrap.nodeName info hp
          | stamping | ended =>
              rw [hpc] at hr
              cases hr
        · exact hp
      exact (h.grow hgrow).weaken rfl (fun hb => hb) rfl (fun p hp => hp)
        (fun id slot hslot => hslot)

/-- In every run that keeps the three conditions, live peers with different ips
have different names. -/
theorem uniqueNames_run {etcd : Etcd} {isLeader : ℕ → Bool} {bootstrap : DaemonConfig}
    {acts : List Act} {w : World}
    (hkeeps : GuardedRuns.Keeps step (fun w act => keepsNames w act = true)
      (fresh etcd isLeader bootstrap) acts)
    (hrun : GuardedRuns.run step (fresh etcd isLeader bootstrap) acts = some w) :
    UniqueNames w :=
  (GuardedRuns.run_guarded (fun _ _ _ h hk hs => inv_step h hk hs)
    (inv_fresh etcd isLeader bootstrap) hkeeps hrun).uniqueNames

/-- A cluster of one peer with an empty topology, every daemon's flag set. -/
def oneNode : World :=
  fresh ⟨.empty, [⟨1, "node-1", ["http://10.0.0.1:2380"]⟩]⟩ (fun _ => true) bootConfig

def registers : List Act := [.registerAttempt .answered, .registerTime ⟨1, 0⟩,
  .registerAttempt .answered]

def twoJoins : List Act := registers ++ joins 1 2 "10.0.0.2" ++ joins 2 3 "10.0.0.3"

theorem uniqueNames_run_twoJoins :
    UniqueNames ((GuardedRuns.run step oneNode twoJoins).get (by decide +kernel)) ∧
      ((GuardedRuns.run step oneNode twoJoins).get (by decide +kernel)).live.length = 3 :=
  have hkeeps : GuardedRuns.Keeps step (fun w act => keepsNames w act = true) oneNode twoJoins := by
    decide +kernel
  ⟨uniqueNames_run hkeeps (Option.some_get _).symm, by decide +kernel⟩

/-- When the bootstrap peer's registration fails, the first joiner gets its name. -/
theorem bootstrap_name_given_away :
    ¬ UniqueNames ((GuardedRuns.run step oneNode
      (.registerAttempt (.refused "500 Internal Server Error") :: joins 1 2 "10.0.0.2")).get
        (by decide +kernel)) := by
  decide +kernel

end MilvusOnprem.Cluster
