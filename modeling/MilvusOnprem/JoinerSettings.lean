import MilvusOnprem.SettingsInvariant

/-!
# What the steps of a join keep

Past the lock a join meets no job, so the files of the peers agree, and the copy
that the joiner gets of its daemon's file agrees with them.
-/
namespace MilvusOnprem.JoinerSettings

open PythonText EtcdClient MilvusOnprem.Topology Joining OrderedPeers EnvFile
open Cluster (holdsLock JoinSlot moveJoin)
open ClusterEnv (perPeerKeys)
open ConcurrentJobs SharedSettings SettingsInvariant
open MigratePulsar (fileText)

variable {w v : World} {id : ℕ} {slot : JoinSlot}

/-! ## Names and ips -/

theorem bare_of_valid {ip : String} (h : isValidIpv4 ip = true) : Bare ip := by
  intro hmem
  have hdrop : '=' ∈ dropFinalNewline ip.toList := by
    unfold dropFinalNewline
    split_ifs with hlast
    · obtain ⟨cs, hcs⟩ := List.getLast?_eq_some_iff.mp hlast
      rw [hcs] at hmem ⊢
      rw [List.dropLast_concat]
      simpa using hmem
    · exact hmem
  simp only [isValidIpv4, Bool.and_eq_true, List.all_eq_true] at h
  obtain ⟨part, hpart, hin⟩ := exists_part_of_mem hdrop (by decide : '=' ≠ '.')
  have hoctet := h.2 part hpart
  simp only [isOctet, Bool.and_eq_true] at hoctet
  obtain ⟨n, hn, -⟩ := (Option.any_eq_true _ _).mp hoctet.2
  have hdigit := parseDigits_chars hn '=' hin
  revert hdigit
  decide

theorem ne_empty_of_valid {ip : String} (h : isValidIpv4 ip = true) : ip ≠ "" := by
  rintro rfl
  exact absurd h (by decide)

theorem bare_nodeName (n : ℕ) : Bare (nodeName n) := by
  refine bare_append (by decide) fun hmem => ?_
  rw [String.toList_ofList] at hmem
  have hdigit := JsonText.natDigits_digits n _ hmem
  revert hdigit
  decide

theorem isPeer_of_registered {kv : OrderedMap String String} {config : DaemonConfig}
    (h : registered kv config = true) : IsPeer kv config.localIp := by
  simp only [registered, Bool.and_eq_true, decide_eq_true_eq] at h
  obtain ⟨info, hinfo, hip⟩ := Option.bind_eq_some_iff.mp h.1
  exact ⟨config.nodeName, info, hinfo, (usedIp_of_ipOf hip h.2).1⟩

theorem entering_put {joins : OrderedMap ℕ JoinSlot} {ip : String}
    (h : Entering (joins.put id slot) ip) :
    choosing slot.thread.pc = true ∧ slot.call.joinerIp = ip ∨ Entering joins ip := by
  obtain ⟨other, slot', hslot', hchoosing, hip⟩ := h
  rw [OrderedMap.get_put] at hslot'
  split_ifs at hslot' with hid
  · cases hslot'
    exact .inl ⟨hchoosing, hip⟩
  · exact .inr ⟨other, slot', hslot', hchoosing, hip⟩

theorem entering_of_put {joins : OrderedMap ℕ JoinSlot} {s : JoinSlot} {ip : String}
    (hslot : joins.get id = some slot) (h : Entering joins ip) :
    Entering (joins.put id s) ip ∨ choosing slot.thread.pc = true ∧ slot.call.joinerIp = ip := by
  obtain ⟨other, slot₀, hslot₀, hchoosing, hip⟩ := h
  by_cases hid : id = other
  · subst hid
    cases hslot.symm.trans hslot₀
    exact .inr ⟨hchoosing, hip⟩
  · exact .inl ⟨other, slot₀, by rwa [OrderedMap.get_put_of_ne _ _ hid], hchoosing, hip⟩

/-! ## Steps past the lock -/

/-- No job runs. -/
def Idle (w : World) : Prop := (∀ x, ¬rotating w x) ∧ ∀ slot, ¬migrating w slot

theorem idle_of_lock (h : Good w) (hslot : w.base.joins.get id = some slot)
    (hlock : holdsLock slot.thread.pc = true) : Idle w := by
  have hfree : ¬Unlocked w := by
    intro hunlocked
    rw [hunlocked id slot hslot] at hlock
    cases hlock
  exact ⟨fun x hx => hfree (h.jobsApart (.inl ⟨x, hx⟩)),
    fun slot hslot => hfree (h.jobsApart (.inr ⟨slot, hslot⟩))⟩

/-- The file has what the peers agree on. -/
def Shares (w : World) (env : String) : Prop :=
  ∀ key ∈ settings, ∀ value, Agreed w.base.etcd.kv w.base.joins w.files key value →
    Sets key value (installed env)

/-- A step past the lock that neither fails nor returns. -/
structure Moves (w : World) (slot : JoinSlot) (kv : OrderedMap String String) (pc : JoinPc) :
    Prop where
  entries : ∀ name info, entryOf kv name = some info → entryOf w.base.etcd.kv name = some info ∨
    Bare name ∧ ipOf info = some slot.call.joinerIp ∧ choosing pc = true
  keeps : ∀ name ip, peerIp w.base.etcd.kv name = some ip → peerIp kv name = some ip
  enters : choosing pc = true → choosing slot.thread.pc = true ∨
    ∀ name, peerIp w.base.etcd.kv name ≠ some slot.call.joinerIp
  stays : choosing slot.thread.pc = true → choosing pc = true
  bare : ∀ name parsed, carried pc = some (name, parsed) → Bare name ∧ BarePeers parsed
  created : ∀ name parsed value, pc = .creating name parsed value →
    ∃ now, value = slot.call.infoValue name now
  issued : ∀ name env, pc = .adding name env → slot.thread.pc = .adding name env ∨ Shares w env

/-- The daemon of a call is a peer with a file. -/
def Hosted (w : World) (d : ℕ) : Prop :=
  registered w.base.etcd.kv (w.config d) = true ∧ ¬Entering w.base.joins (w.localIp d)

theorem good_moves (h : Good w) {b : Cluster.World} {t : Thread JoinPc}
    (hslot : w.base.joins.get id = some slot)
    (hjoins : b.joins = w.base.joins.put id { slot with thread := t }) (hidle : Idle w)
    (hvalid : isValidIpv4 slot.call.joinerIp = true) (hhosted : Hosted w slot.daemon)
    (hm : Moves w slot b.etcd.kv t.pc) : Good { w with base := b } := by
  have hpeer : ∀ ip, IsPeer b.etcd.kv ip → ¬Entering b.joins ip →
      IsPeer w.base.etcd.kv ip ∧ ¬Entering w.base.joins ip := by
    intro ip hip hentering
    rw [hjoins] at hentering
    constructor
    · obtain ⟨name, info, hinfo, hused⟩ := hip
      rcases hm.entries name info hinfo with hold | ⟨-, hjoiner, hchoosing⟩
      · exact ⟨name, info, hold, hused⟩
      · rw [(usedIp_of_ipOf hjoiner (ne_empty_of_valid hvalid)).1, Option.some.injEq] at hused
        exact absurd ⟨id, _, OrderedMap.get_put_self _ _ _, hchoosing, hused⟩ hentering
    · intro hold
      rcases entering_of_put (s := { slot with thread := t }) hslot hold with hnew | ⟨hpc, hip⟩
      · exact hentering hnew
      · exact hentering ⟨id, _, OrderedMap.get_put_self _ _ _, hm.stays hpc, hip⟩
  have hlift : ∀ d, Hosted w d → registered b.etcd.kv (w.config d) = true ∧
      ¬Entering b.joins (w.config d).localIp := by
    intro d hd
    obtain ⟨hregistered, hfree⟩ := hd
    simp only [registered, Bool.and_eq_true, decide_eq_true_eq] at hregistered ⊢
    refine ⟨⟨hm.keeps _ _ hregistered.1, hregistered.2⟩, fun hentering => ?_⟩
    rw [hjoins] at hentering
    rcases entering_put hentering with ⟨hpc, hip⟩ | hold
    · rcases hm.enters hpc with hbefore | hnone
      · exact hfree ⟨id, slot, hslot, hbefore, hip⟩
      · exact hnone _ (hregistered.1.trans (congrArg some hip.symm))
    · exact hfree hold
  have hagreed : ∀ key ∈ settings, ∀ value, Agreed w.base.etcd.kv w.base.joins w.files key value →
      Agreed b.etcd.kv b.joins w.files key value := by
    intro key hkey value hold
    refine ⟨fun ip hip hentering => ?_, fun other slot' name env hslot' hpc => ?_⟩
    · obtain ⟨hip', hentering'⟩ := hpeer ip hip hentering
      exact hold.files ip hip' hentering'
    · rw [hjoins, OrderedMap.get_put] at hslot'
      split_ifs at hslot'
      · cases hslot'
        rcases hm.issued name env hpc with hbefore | hshares
        · exact hold.issued id slot name env hslot hbefore
        · exact hshares key hkey value hold
      · exact hold.issued other slot' name env hslot' hpc
  exact {
    answered := h.answered
    handlings := h.handlings
    syncs := h.syncs
    rotations := fun x hx => absurd hx (hidle.1 x)
    migrations := fun x hx => absurd hx (hidle.2 x)
    oneToken := fun x y hx => absurd hx (hidle.1 x)
    oneHost := fun x y hx => absurd hx (hidle.2 x)
    jobsApart := by
      rintro (⟨x, hx⟩ | ⟨x, hx⟩)
      · exact absurd hx (hidle.1 x)
      · exact absurd hx (hidle.2 x)
    bare := by
      intro name info hinfo
      rcases hm.entries name info hinfo with hold | ⟨hname, hjoiner, -⟩
      · exact h.bare name info hold
      · refine ⟨hname, fun ip hip => ?_⟩
        cases hjoiner.symm.trans hip
        exact bare_of_valid hvalid
    tidy := by
      intro ip hip hentering
      obtain ⟨hip', hentering'⟩ := hpeer ip hip hentering
      exact h.tidy ip hip' hentering'
    joins := by
      intro other slot' hslot'
      have hslot'' : (w.base.joins.put id { slot with thread := t }).get other = some slot' :=
        hjoins ▸ hslot'
      rw [OrderedMap.get_put] at hslot''
      split_ifs at hslot''
      · cases hslot''
        exact ⟨fun _ => hvalid, hm.bare, hm.created, fun _ => hlift _ hhosted⟩
      · obtain ⟨hvalid', hbare', hcreated', hhosted'⟩ := h.joins other slot' hslot''
        exact ⟨hvalid', hbare', hcreated', fun hlock => hlift _ (hhosted' hlock)⟩
    token := by
      intro _
      obtain ⟨value, hvalue⟩ := h.token hidle.1
      exact ⟨value, hagreed _ (mem_settings.mpr (.inl rfl)) value hvalue⟩
    host := by
      intro _
      obtain ⟨value, hvalue⟩ := h.host fun x hx => absurd hx (hidle.2 x)
      exact ⟨value, hagreed _ (mem_settings.mpr (.inr rfl)) value hvalue⟩ }

/-- The joiner writes the file it was issued. -/
theorem good_installs (h : Good w) {b : Cluster.World} {t : Thread JoinPc} {r : JoinResult}
    (hslot : w.base.joins.get id = some slot)
    (hjoins : b.joins = w.base.joins.put id { slot with thread := t })
    (hkv : b.etcd.kv = w.base.etcd.kv) (hpc : t.pc = .returned r)
    (hjoiner : r.localIp = slot.call.joinerIp) (hidle : Idle w)
    (hvalid : isValidIpv4 slot.call.joinerIp = true) (hshares : Shares w r.clusterEnv) :
    Good { w with
      base := b
      files := Function.update w.files r.localIp (installed r.clusterEnv) } := by
  obtain ⟨etcd, _, joins, _, _, _, _, _⟩ := b
  cases hjoins
  have hentering : ∀ ip, Entering (w.base.joins.put id { slot with thread := t }) ip →
      Entering w.base.joins ip := by
    intro ip hin
    rcases entering_put hin with ⟨hchoosing, -⟩ | hold
    · rw [hpc] at hchoosing
      cases hchoosing
    · exact hold
  have hagreed : ∀ key ∈ settings, ∀ value, Agreed w.base.etcd.kv w.base.joins w.files key value →
      Agreed etcd.kv (w.base.joins.put id { slot with thread := t })
        (Function.update w.files r.localIp (installed r.clusterEnv)) key value := by
    intro key hkey value hold
    refine ⟨fun ip hip hfree => ?_, fun other slot' name env hslot' hadding => ?_⟩
    · by_cases hself : ip = r.localIp
      · subst hself
        rw [Function.update_self]
        exact hshares key hkey value hold
      · rw [Function.update_of_ne hself]
        refine hold.files ip (hkv ▸ hip) fun hin => ?_
        rcases entering_of_put (s := { slot with thread := t }) hslot hin with hnew | ⟨-, heq⟩
        · exact hfree hnew
        · exact hself (heq.symm.trans hjoiner.symm)
    · rw [OrderedMap.get_put] at hslot'
      split_ifs at hslot'
      · cases hslot'
        cases hpc.symm.trans hadding
      · exact hold.issued other slot' name env hslot' hadding
  obtain ⟨token, htoken⟩ := h.token hidle.1
  obtain ⟨host, hhost⟩ := h.host fun x hx => absurd hx (hidle.2 x)
  have htoken' := hagreed _ (mem_settings.mpr (.inl rfl)) token htoken
  have hhost' := hagreed _ (mem_settings.mpr (.inr rfl)) host hhost
  exact {
    bare := fun name info hinfo => h.bare name info (hkv ▸ hinfo)
    rotations := fun x hx => absurd hx (hidle.1 x)
    answered := h.answered
    migrations := fun x hx => absurd hx (hidle.2 x)
    oneToken := fun x y hx => absurd hx (hidle.1 x)
    oneHost := fun x y hx => absurd hx (hidle.2 x)
    token := fun _ => ⟨token, htoken'⟩
    host := fun _ => ⟨host, hhost'⟩
    jobsApart := by
      rintro (⟨x, hx⟩ | ⟨x, hx⟩)
      · exact absurd hx (hidle.1 x)
      · exact absurd hx (hidle.2 x)
    tidy := by
      intro ip hip hfree key hkey
      rcases mem_settings.mp hkey with rfl | rfl
      · exact ⟨token, htoken'.files ip hip hfree⟩
      · exact ⟨host, hhost'.files ip hip hfree⟩
    joins := by
      intro other slot' hslot'
      change (w.base.joins.put id { slot with thread := t }).get other = some slot' at hslot'
      rw [OrderedMap.get_put] at hslot'
      split_ifs at hslot'
      · cases hslot'
        refine ⟨fun _ => hvalid, fun name parsed hcarried => ?_, fun name parsed value hcreating => ?_,
          fun hlock => ?_⟩
        · rw [hpc] at hcarried
          cases hcarried
        · cases hpc.symm.trans hcreating
        · rw [hpc] at hlock
          cases hlock
      · obtain ⟨hvalid', hbare, hcreated, hhosted⟩ := h.joins other slot' hslot'
        refine ⟨hvalid', hbare, hcreated, fun hlock => ?_⟩
        obtain ⟨hregistered, hfree⟩ := hhosted hlock
        exact ⟨hkv ▸ hregistered, fun hin => hfree (hentering _ hin)⟩
    handlings := by
      intro job name y hy
      obtain ⟨hsent, hnamed, hlive, -⟩ := h.handlings job name y hy
      refine ⟨hsent, hnamed, hlive, fun x hx hworking => ?_⟩
      exact absurd ⟨⟨job, hx⟩, hworking⟩ (hidle.1 x)
    syncs := by
      intro other
      obtain ⟨-, hawaited⟩ := h.syncs other
      refine ⟨fun slot p queue watched hslot hsyncing => ?_, hawaited⟩
      exact absurd ⟨⟨other, hslot⟩, by rw [hsyncing]; rfl⟩ (hidle.2 slot) }

/-- The copy has what the file of a hosting daemon has. -/
theorem Hosted.shares {name issuedAt env : String} {others : List (String × Json)}
    (hhosted : Hosted w slot.daemon) (hvalid : isValidIpv4 slot.call.joinerIp = true)
    (hname : Bare name) (hothers : BarePeers others) (hissued : Bare issuedAt)
    (henv : slot.call.joinerEnv name others (some (fileText (w.files (w.localIp slot.daemon))))
      issuedAt = .ok env) : Shares w env := by
  intro key hkey value hagreed
  have hper : ∀ key ∈ settings, key.text ∉ perPeerKeys := by decide
  have hfile := hagreed.files _ (isPeer_of_registered hhosted.1) hhosted.2
  exact hfile.joinerEnv (isWord_settings hkey) (hper key hkey) hname (bare_of_valid hvalid) hothers
    hissued henv

/-! ## The points of a call -/

theorem barePeers_parsed (h : Good w) :
    BarePeers (parseTopology (withPrefix TOPOLOGY_PREFIX w.base.etcd.kv)) :=
  fun e he => h.bare e.1 e.2 (mem_parseTopology.mp he)

/-- A step that leaves the topology as it is. -/
theorem Moves.quiet {pc : JoinPc} (hchoosing : choosing pc = choosing slot.thread.pc)
    (hbare : ∀ name parsed, carried pc = some (name, parsed) → Bare name ∧ BarePeers parsed)
    (hcreated : ∀ name parsed value, pc = .creating name parsed value →
      ∃ now, value = slot.call.infoValue name now)
    (hissued : ∀ name env, pc = .adding name env → slot.thread.pc = .adding name env ∨ Shares w env) :
    Moves w slot w.base.etcd.kv pc :=
  ⟨fun _ _ h => .inl h, fun _ _ h => h, fun h => .inl (hchoosing ▸ h), fun h => hchoosing.trans h,
    hbare, hcreated, hissued⟩

/-- The call tries again. -/
theorem Moves.again (hfit : JoinFit w.base.etcd.kv w.base.joins w.config slot) :
    Moves w slot w.base.etcd.kv slot.thread.pc :=
  .quiet rfl hfit.bare hfit.created fun _ _ h => .inl h

theorem Moves.read (h : Good w) (hpc : slot.thread.pc = .reading) {pc : JoinPc}
    (hchosen : slot.call.chosen (parseTopology (withPrefix TOPOLOGY_PREFIX w.base.etcd.kv)) = pc)
    (hok : ∀ e, pc ≠ .raised e) : Moves w slot w.base.etcd.kv pc := by
  have hparsed := barePeers_parsed h
  rcases slot.call.chosen_cases (parseTopology (withPrefix TOPOLOGY_PREFIX w.base.etcd.kv)) with
    ⟨e, he⟩ | ⟨name, hfound, he⟩ | ⟨hnone, he⟩
  · exact absurd (hchosen.symm.trans he) (hok e)
  · rw [hchosen] at he
    subst he
    obtain ⟨info, hinfo, -⟩ := findNodeNameByIp_some hfound
    refine .quiet (by rw [hpc]; rfl) ?_ (by simp) (by simp)
    rintro _ _ ⟨⟩
    exact ⟨(hparsed _ hinfo).1, hparsed⟩
  · rw [hchosen] at he
    subst he
    refine ⟨fun _ _ h => .inl h, fun _ _ h => h, fun _ => .inr fun name hip => ?_,
      fun hchoosing => ?_, ?_, by simp, by simp⟩
    · obtain ⟨info, hinfo, hjoiner⟩ := Option.bind_eq_some_iff.mp hip
      exact (findNodeNameByIp_none hnone _ (mem_parseTopology.mpr hinfo)).2 hjoiner
    · rw [hpc] at hchoosing
      cases hchoosing
    · rintro _ _ ⟨⟩
      exact ⟨bare_nodeName _, hparsed⟩

/-- The entry of the joiner is written, or is there already. -/
theorem Moves.create {name value : String} {parsed : List (String × Json)} {pc : JoinPc} (newId : ℕ)
    (hfit : JoinFit w.base.etcd.kv w.base.joins w.config slot)
    (hpc : slot.thread.pc = .creating name parsed value)
    (hnext : pc = .creating name parsed value ∨ pc = .building name parsed) :
    Moves w slot
      (serve newId w.base.etcd (.putIfAbsent (TOPOLOGY_PREFIX ++ name) value)).1.kv pc := by
  obtain ⟨hname, hparsed⟩ := hfit.bare name parsed (by rw [hpc]; rfl)
  have hchoosing : choosing pc = true := by rcases hnext with rfl | rfl <;> rfl
  have hcarried : carried pc = some (name, parsed) := by rcases hnext with rfl | rfl <;> rfl
  refine ⟨?_, fun _ _ => Cluster.putIfAbsent_grows newId _ name value, fun _ => .inl (by rw [hpc]; rfl),
    fun _ => hchoosing, ?_, ?_, ?_⟩
  · intro other info hinfo
    rw [serve_putIfAbsent] at hinfo
    split_ifs at hinfo
    · by_cases hsame : name = other
      · subst hsame
        rw [entryOf, OrderedMap.get_put_self, Option.bind_some] at hinfo
        obtain ⟨now, hvalue⟩ := hfit.created name parsed value hpc
        have hip := slot.call.textIp_infoValue name now
        rw [← hvalue, textIp, hinfo, Option.bind_some] at hip
        exact .inr ⟨hname, hip, hchoosing⟩
      · rw [entryOf, OrderedMap.get_put_of_ne _ _ fun h => hsame (append_left_injective h)] at hinfo
        exact .inl hinfo
    · exact .inl hinfo
  · intro n ps hn
    rw [hcarried] at hn
    cases hn
    exact ⟨hname, hparsed⟩
  · intro n ps v hv
    rcases hnext with rfl | rfl
    · cases hv
      exact hfit.created name parsed value hpc
    · cases hv
  · intro n env hadding
    rcases hnext with rfl | rfl <;> cases hadding

/-! ## The steps -/

/-- What holds of a call past the lock. -/
structure PastLock (w : World) (slot : JoinSlot) : Prop where
  idle : Idle w
  valid : isValidIpv4 slot.call.joinerIp = true
  hosted : Hosted w slot.daemon

theorem pastLock (h : Good w) (hslot : w.base.joins.get id = some slot)
    (hlock : holdsLock slot.thread.pc = true) : PastLock w slot := by
  obtain ⟨hvalid, -, -, hhosted⟩ := h.joins id slot hslot
  refine ⟨idle_of_lock h hslot hlock, hvalid fun e he => ?_, hhosted hlock⟩
  rw [he] at hlock
  cases hlock

/-- The world after the step of a call. -/
def afterMove (w : World) (id : ℕ) (slot : JoinSlot) (s : Etcd) (t : Thread JoinPc)
    (a : Cluster.Act) : World :=
  { w with
    base := moveJoin w.base id slot s t
    files := install w.files (delivered (moveJoin w.base id slot s t) a) }

def IsStepOf (id : ℕ) (a : Cluster.Act) : Prop :=
  (∃ i, a = .joinInput id i) ∨ ∃ newId x, a = .joinAttempt id newId x

section Steps

variable {s : Etcd} {t : Thread JoinPc} {a : Cluster.Act} {b : Cluster.World}

theorem delivered_moveJoin (ha : IsStepOf id a) (b : Cluster.World) (slot : JoinSlot) :
    delivered (moveJoin b id slot s t) a =
      match t.pc with
      | .returned r => some r
      | _ => none := by
  have hslot : ((moveJoin b id slot s t).joins.get id) = some { slot with thread := t } :=
    OrderedMap.get_put_self _ _ _
  rcases ha with ⟨i, rfl⟩ | ⟨newId, x, rfl⟩
  · exact congrArg (Option.bind · _) hslot
  · exact congrArg (Option.bind · _) hslot

theorem inv_fails (ht : (∃ name cause, t.pc = .rollingBack name cause) ∨ ∃ e, t.pc = .raised e) :
    Inv (afterMove w id slot s t a) :=
  .inl (.inr (.inr ⟨id, { slot with thread := t }, OrderedMap.get_put_self _ _ _, ht⟩))

theorem inv_moves (h : Good w) (ha : IsStepOf id a) (hslot : w.base.joins.get id = some slot)
    (hpast : PastLock w slot) (hreturn : ∀ r, t.pc ≠ .returned r) (hm : Moves w slot s.kv t.pc) :
    Inv (afterMove w id slot s t a) := by
  have hnone : delivered (moveJoin w.base id slot s t) a = none := by
    rw [delivered_moveJoin ha]
    split
    · next r hr => exact absurd hr (hreturn r)
    · rfl
  rw [afterMove, hnone]
  exact .inr (good_moves (b := moveJoin w.base id slot s t) h hslot rfl hpast.idle hpast.valid
    hpast.hosted hm)

theorem inv_returns (h : Good w) (ha : IsStepOf id a) (hslot : w.base.joins.get id = some slot)
    (hpast : PastLock w slot) {name env : String} (hkv : s.kv = w.base.etcd.kv)
    (ht : t.pc = .returned (slot.call.result name env)) (hshares : Shares w env) :
    Inv (afterMove w id slot s t a) := by
  have hsome : delivered (moveJoin w.base id slot s t) a = some (slot.call.result name env) := by
    rw [delivered_moveJoin ha, ht]
  rw [afterMove, hsome]
  exact .inr (good_installs (b := moveJoin w.base id slot s t) h hslot rfl hkv ht rfl hpast.idle
    hpast.valid hshares)

theorem pastLock_of_lock (h : Good w) {now : ℕ}
    (haccurate : accurate w (.cluster (.joinInput id (.acquired now))) = true)
    (hapart : apart w (.cluster (.joinInput id (.acquired now))) = true)
    (hslot : w.base.joins.get id = some slot) (hpc : slot.thread.pc = .queued) : PastLock w slot := by
  simp only [accurate, apart, hslot, Option.all_some, noJob, noNewPeer, Bool.and_eq_true,
    List.all_eq_true] at haccurate hapart
  obtain ⟨⟨hrotations, hmigrations⟩, hfree⟩ := hapart
  refine ⟨⟨?_, ?_⟩, (h.joins id slot hslot).valid (by simp [hpc]), haccurate, ?_⟩
  · rintro x ⟨⟨job, hx⟩, hworking⟩
    have hidle := hrotations (job, x) (OrderedMap.mem_entries.mpr hx)
    simp [hworking] at hidle
  · rintro x ⟨⟨job, hx⟩, hrunning⟩
    have hidle := hmigrations (job, x) (OrderedMap.mem_entries.mpr hx)
    simp [hrunning] at hidle
  · rintro ⟨other, slot', hslot', hchoosing, hip⟩
    have hnew := hfree (other, slot') (OrderedMap.mem_entries.mpr hslot')
    simp [hchoosing, hip] at hnew

theorem file_of_belongs {file : Option String} {issuedAt : String}
    (hslot : w.base.joins.get id = some slot)
    (h : belongs w (.joinInput id (.clusterEnv file issuedAt)) = true) :
    file = some (fileText (w.files (w.localIp slot.daemon))) ∧ Bare issuedAt := by
  simpa only [belongs, hslot, Option.any_some, Bool.and_eq_true, decide_eq_true_eq] using h

theorem inv_input (h : Good w) {i : JoinCall.Input} {pc : JoinPc}
    (haccurate : accurate w (.cluster (.joinInput id i)) = true)
    (hapart : apart w (.cluster (.joinInput id i)) = true)
    (hbelongs : belongs w (.joinInput id i) = true) (hslot : w.base.joins.get id = some slot)
    (hstep : slot.call.Proceeds slot.thread.pc i pc) :
    Inv (afterMove w id slot w.base.etcd ⟨pc, 0⟩ (.joinInput id i)) := by
  have ha : IsStepOf id (.joinInput id i) := .inl ⟨i, rfl⟩
  have hfit := h.joins id slot hslot
  generalize hpc : slot.thread.pc = pc₀ at hstep
  cases hstep with
  | lock now =>
      refine inv_moves h ha hslot (pastLock_of_lock h haccurate hapart hslot hpc) (by simp)
        (.quiet (by rw [hpc]; rfl) (by simp [carried]) (by simp) (by simp))
  | poll =>
      exact inv_moves h ha hslot (pastLock h hslot (by rw [hpc]; rfl)) (by simp)
        (.quiet (by rw [hpc]; rfl) (by simp [carried]) (by simp) (by simp))
  | timeout => exact inv_fails (.inr ⟨_, rfl⟩)
  | @rejoined name parsed file issuedAt env henv =>
      have hpast := pastLock h hslot (by rw [hpc]; rfl)
      obtain ⟨hname, hparsed⟩ := hfit.bare name parsed (by rw [hpc]; rfl)
      obtain ⟨rfl, hissued⟩ := file_of_belongs hslot hbelongs
      refine inv_returns h ha hslot hpast rfl rfl ?_
      exact hpast.hosted.shares hpast.valid hname
        (fun e he => hparsed e (List.mem_of_mem_filter he)) hissued henv
  | rejoinFailed => exact inv_fails (.inr ⟨_, rfl⟩)
  | stamp =>
      refine inv_moves h ha hslot (pastLock h hslot (by rw [hpc]; rfl)) (by simp)
        (.quiet (by rw [hpc]; rfl) ?_ ?_ (by simp))
      · rintro _ _ ⟨⟩
        exact hfit.bare _ _ (by rw [hpc]; rfl)
      · rintro _ _ _ ⟨⟩
        exact ⟨_, rfl⟩
  | @built name parsed file issuedAt env henv =>
      have hpast := pastLock h hslot (by rw [hpc]; rfl)
      obtain ⟨hname, hparsed⟩ := hfit.bare name parsed (by rw [hpc]; rfl)
      obtain ⟨rfl, hissued⟩ := file_of_belongs hslot hbelongs
      refine inv_moves h ha hslot hpast (by simp)
        (.quiet (by rw [hpc]; rfl) (by simp [carried]) (by simp) ?_)
      rintro _ _ ⟨⟩
      exact .inr (hpast.hosted.shares hpast.valid hname hparsed hissued henv)
  | buildFailed => exact inv_fails (.inr ⟨_, rfl⟩)

/-- The store after a request that writes no entry. -/
theorem serve_kv {r : Request} {newId : ℕ} {s : Etcd} (hput : ∀ key value, r ≠ .putIfAbsent key value)
    (hdelete : ∀ key, r ≠ .delete key) : (serve newId s r).1.kv = s.kv := by
  cases r with
  | putIfAbsent key value => exact absurd rfl (hput key value)
  | delete key => exact absurd rfl (hdelete key)
  | memberAdd urls =>
      simp only [serve]
      split_ifs <;> rfl
  | memberRemove id =>
      simp only [serve]
      split_ifs <;> rfl
  | _ => rfl

theorem inv_attempt (h : Good w) (hnot : ¬Doomed w) {newId : ℕ} {x : Attempt}
    (hslot : w.base.joins.get id = some slot)
    (hstep : slot.call.Attempts newId slot.thread.tries w.base.etcd slot.thread.pc x s t.pc) :
    Inv (afterMove w id slot s t (.joinAttempt id newId x)) := by
  have ha : IsStepOf id (.joinAttempt id newId x) := .inr ⟨newId, x, rfl⟩
  have hfit := h.joins id slot hslot
  generalize hpc : slot.thread.pc = pc₀ at hstep
  generalize hqc : t.pc = qc at hstep
  cases hstep with
  | @again _ r _ hrequest =>
      have hlock : holdsLock slot.thread.pc = true := by
        rw [hpc]
        cases pc₀ <;> first | rfl | cases hrequest
      have hagain : Moves w slot w.base.etcd.kv t.pc := hqc.trans hpc.symm ▸ Moves.again hfit
      refine inv_moves h ha hslot (pastLock h hslot hlock) (fun r hr => ?_) ?_
      · cases hqc.symm.trans hr
        cases hrequest
      split_ifs
      · cases pc₀ with
        | creating name parsed value =>
            cases hrequest
            exact .create newId hfit hpc (.inl hqc)
        | rollingBack name cause =>
            exact absurd (.inr (.inr ⟨id, slot, hslot, .inl ⟨_, _, hpc⟩⟩)) hnot
        | polling deadline =>
            cases hrequest
            exact hagain
        | reading =>
            cases hrequest
            exact hagain
        | adding name env =>
            cases hrequest
            rwa [serve_kv (by simp) (by simp)]
        | _ => cases hrequest
      · exact hagain
  | pollFailed =>
      exact inv_moves h ha hslot (pastLock h hslot (by rw [hpc]; rfl)) (by simp [hqc])
        (.quiet (by rw [hpc, hqc]; rfl) (by simp [carried, hqc]) (by simp [hqc]) (by simp [hqc]))
  | polled =>
      exact inv_moves h ha hslot (pastLock h hslot (by rw [hpc]; rfl)) (by simp [hqc])
        (.quiet (by rw [hpc, hqc]; rfl) (by simp [carried, hqc]) (by simp [hqc]) (by simp [hqc]))
  | unhealthy =>
      exact inv_moves h ha hslot (pastLock h hslot (by rw [hpc]; rfl)) (by simp [hqc])
        (.quiet (by rw [hpc, hqc]; rfl) (by simp [carried, hqc]) (by simp [hqc]) (by simp [hqc]))
  | readFailed => exact inv_fails (.inr ⟨_, hqc⟩)
  | read =>
      by_cases hraised : ∃ e, t.pc = .raised e
      · exact inv_fails (.inr hraised)
      · refine inv_moves h ha hslot (pastLock h hslot (by rw [hpc]; rfl)) (fun r hr => ?_)
          (.read h hpc hqc.symm fun e he => hraised ⟨e, he⟩)
        exact slot.call.chosen_ne_returned _ r (hqc.symm.trans hr)
  | createFailed => exact inv_fails (.inr ⟨_, hqc⟩)
  | created =>
      exact inv_moves h ha hslot (pastLock h hslot (by rw [hpc]; rfl)) (by simp [hqc])
        (.create newId hfit hpc (.inr hqc))
  | addFailed => exact inv_fails (.inl ⟨_, _, hqc⟩)
  | @added name env hnew =>
      refine inv_returns h ha hslot (pastLock h hslot (by rw [hpc]; rfl)) rfl hqc ?_
      exact fun key _ value hagreed => hagreed.issued id slot name env hslot hpc
  | rolledBack =>
      exact absurd (.inr (.inr ⟨id, slot, hslot, .inl ⟨_, _, hpc⟩⟩)) hnot

end Steps

/-- A request arrives; it waits for the lock or is refused. -/
theorem inv_startJoin (h : Good w) {d : ℕ} {call : JoinCall} (hnew : w.base.joins.get id = none) :
    Inv { w with base := { w.base with joins := w.base.joins.put id ⟨d, call, ⟨call.start, 0⟩⟩ } } := by
  by_cases hvalid : isValidIpv4 call.joinerIp = true
  · have hstart : call.start = .queued := by rw [JoinCall.start, if_pos hvalid]
    have hentering : ∀ ip, Entering (w.base.joins.put id ⟨d, call, ⟨call.start, 0⟩⟩) ip ↔
        Entering w.base.joins ip := by
      intro ip
      constructor
      · intro hin
        rcases entering_put hin with ⟨hchoosing, -⟩ | hold
        · rw [hstart] at hchoosing
          cases hchoosing
        · exact hold
      · rintro ⟨other, slot, hslot, hchoosing, hip⟩
        refine ⟨other, slot, ?_, hchoosing, hip⟩
        rwa [OrderedMap.get_put_of_ne]
        rintro rfl
        rw [hnew] at hslot
        cases hslot
    have hold : ∀ {other : ℕ} {slot : JoinSlot},
        (w.base.joins.put id ⟨d, call, ⟨call.start, 0⟩⟩).get other = some slot →
        slot = ⟨d, call, ⟨.queued, 0⟩⟩ ∨ w.base.joins.get other = some slot := by
      intro other slot hslot
      rw [OrderedMap.get_put] at hslot
      split_ifs at hslot
      · cases hslot
        exact .inl (by rw [hstart])
      · exact .inr hslot
    have hagreed : ∀ {key value}, Agreed w.base.etcd.kv w.base.joins w.files key value →
        Agreed w.base.etcd.kv (w.base.joins.put id ⟨d, call, ⟨call.start, 0⟩⟩) w.files key value := by
      rintro key value ⟨hfiles, hissued⟩
      refine ⟨fun ip hip hfree => hfiles ip hip fun hin => hfree ((hentering ip).mpr hin), ?_⟩
      intro other slot name env hslot hpc
      rcases hold hslot with rfl | hslot
      · cases hpc
      · exact hissued other slot name env hslot hpc
    exact .inr {
      bare := h.bare
      rotations := h.rotations
      answered := h.answered
      handlings := h.handlings
      migrations := h.migrations
      syncs := h.syncs
      oneToken := h.oneToken
      oneHost := h.oneHost
      tidy := fun ip hip hfree => h.tidy ip hip fun hin => hfree ((hentering ip).mpr hin)
      token := fun hidle => (h.token hidle).imp fun _ => hagreed
      host := fun hidle => (h.host hidle).imp fun _ => hagreed
      jobsApart := by
        intro hbusy other slot hslot
        rcases hold hslot with rfl | hslot
        · rfl
        · exact h.jobsApart hbusy other slot hslot
      joins := by
        intro other slot hslot
        rcases hold hslot with rfl | hslot
        · exact ⟨fun _ => hvalid, by simp [carried], by simp, by simp [holdsLock]⟩
        · obtain ⟨hip, hbare, hcreated, hhosted⟩ := h.joins other slot hslot
          refine ⟨hip, hbare, hcreated, fun hlock => ?_⟩
          obtain ⟨hregistered, hfree⟩ := hhosted hlock
          exact ⟨hregistered, fun hin => hfree ((hentering _).mp hin)⟩ }
  · refine .inl (.inr (.inr ⟨id, _, OrderedMap.get_put_self _ _ _, .inr ?_⟩))
    exact ⟨.joinError ("invalid joiner IP: " ++ PythonText.repr call.joinerIp), if_neg hvalid⟩

/-- A step that changes neither the topology nor a call. -/
theorem good_rebase (h : Good w) {b : Cluster.World} (hkv : b.etcd.kv = w.base.etcd.kv)
    (hjoins : b.joins = w.base.joins) : Good { w with base := b } := by
  obtain ⟨⟨kv, _⟩, _, joins, _, _, _, _, _⟩ := b
  cases hkv
  cases hjoins
  exact ⟨h.bare, h.tidy, h.joins, h.rotations, h.answered, h.handlings, h.migrations, h.syncs, h.jobsApart,
    h.oneToken, h.oneHost, h.token, h.host⟩

/-- Every step of the joins keeps the invariant. -/
theorem inv_cluster (h : Good w) (hnot : ¬Doomed w) {a : Cluster.Act} {b : Cluster.World}
    (haccurate : accurate w (.cluster a) = true) (hapart : apart w (.cluster a) = true)
    (hbelongs : belongs w a = true) (hstep : Cluster.Steps w.base a b) :
    Inv { w with base := b, files := install w.files (delivered b a) } := by
  cases hstep with
  | setLeader => exact .inr (good_rebase h rfl rfl)
  | startJoin _ hnew => exact inv_startJoin h hnew
  | joinInput hslot _ hproceeds => exact inv_input h haccurate hapart hbelongs hslot hproceeds
  | joinAttempt hslot _ hattempts => exact inv_attempt h hnot hslot hattempts
  | memberStarts => exact .inr (good_rebase h rfl rfl)
  | startRemoval | removalInput | removalAttempt | crash | bootstrapStarts | registerTime
  | registerAttempt => cases hbelongs

/-- A failed call stays failed. -/
theorem doomed_cluster (h : Doomed w) {a : Cluster.Act} {b : Cluster.World}
    (hbelongs : belongs w a = true) (hstep : Cluster.Steps w.base a b) :
    Doomed { w with base := b, files := install w.files (delivered b a) } := by
  rcases h with h | h | ⟨other, slot, hslot, hpc⟩
  · exact .inl h
  · exact .inr (.inl h)
  refine .inr (.inr ?_)
  have hmove : ∀ {id : ℕ} {slot' : JoinSlot} {s : Etcd} {t : Thread JoinPc},
      w.base.joins.get id = some slot' →
      (id = other → (∃ name cause, t.pc = .rollingBack name cause) ∨ ∃ e, t.pc = .raised e) →
      ∃ id₁ slot₁, (moveJoin w.base id slot' s t).joins.get id₁ = some slot₁ ∧
        ((∃ name cause, slot₁.thread.pc = .rollingBack name cause) ∨
          ∃ e, slot₁.thread.pc = .raised e) := by
    intro id slot' s t hslot' hnext
    by_cases hid : id = other
    · exact ⟨id, _, OrderedMap.get_put_self _ _ _, hnext hid⟩
    · exact ⟨other, slot, (OrderedMap.get_put_of_ne _ _ hid).trans hslot, hpc⟩
  cases hstep with
  | setLeader | memberStarts => exact ⟨other, slot, hslot, hpc⟩
  | @startJoin id d call _ hnew =>
      refine ⟨other, slot, ?_, hpc⟩
      dsimp only
      rwa [OrderedMap.get_put_of_ne]
      rintro rfl
      rw [hnew] at hslot
      cases hslot
  | joinInput hslot' _ hproceeds =>
      refine hmove hslot' ?_
      rintro rfl
      cases hslot.symm.trans hslot'
      rcases hpc with ⟨name, cause, hpc⟩ | ⟨e, hpc⟩
      · rw [hpc] at hproceeds
        cases hproceeds
      · rw [hpc] at hproceeds
        cases hproceeds
  | @joinAttempt _ _ _ _ _ t hslot' _ hattempts =>
      refine hmove hslot' ?_
      rintro rfl
      cases hslot.symm.trans hslot'
      generalize t.pc = qc at hattempts
      rcases hpc with ⟨name, cause, hpc⟩ | ⟨e, hpc⟩
      · rw [hpc] at hattempts
        cases hattempts with
        | again => exact .inl ⟨_, _, rfl⟩
        | rolledBack => exact .inr ⟨_, rfl⟩
      · rw [hpc] at hattempts
        cases hattempts with
        | again hrequest => cases hrequest
  | startRemoval | removalInput | removalAttempt | crash | bootstrapStarts | registerTime
  | registerAttempt => cases hbelongs

end MilvusOnprem.JoinerSettings
