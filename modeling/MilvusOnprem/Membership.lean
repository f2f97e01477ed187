import MilvusOnprem.Cluster

/-!
# The entry and the member of a joined peer

Whenever a join returns, the topology has exactly one entry with the joiner's
ip, under the returned name, and the Raft membership has its peer URL exactly
once. Joins come one after another here, whatever became of the earlier ones,
remove-node jobs run beside them, and every call uses the cluster's peer port.

The re-join branch takes an entry for a finished join, so the property rests on
conditions that the code does not enforce: no call ends with its entry written
and its member missing, and no job removes what a join in progress or a listed
peer needs.
-/
namespace MilvusOnprem.Cluster

open EtcdClient MilvusOnprem.Topology Joining RemoveNode

def memberUrl (port : ℤ) (ip : String) : String := "http://" ++ ip ++ ":" ++ toString port

/-- How often a URL occurs in the membership. -/
def urlCount (ms : List Member) (url : String) : ℕ := (ms.flatMap Member.peerURLs).count url

/-- The name a call has written or is about to write an entry for. -/
def pendingName : JoinPc → Option String
  | .creating name _ _ | .building name _ | .adding name _ | .rollingBack name _ => some name
  | _ => none

def running : JoinPc → Bool
  | .returned _ | .raised _ => false
  | _ => true

/-- A joined peer: one entry with its ip, and its URL once in the membership. -/
def Joined (port : ℤ) (s : Etcd) (name ip : String) : Prop :=
  (∀ m, peerIp s.kv m = some ip ↔ m = name) ∧ urlCount s.members (memberUrl port ip) = 1

/-! ## The conditions -/

/-- The call has no entry, or its member is there. -/
def noOrphan (s : Etcd) (c : JoinCall) (name : String) : Bool :=
  peerIp s.kv name ≠ some c.joinerIp || hasURL s.members c.peerUrl

/-- A call that cannot build `cluster.env` ends, so its member must be there. -/
def inputKeeps (s : Etcd) (slot : JoinSlot) : JoinCall.Input → Bool
  | .clusterEnv file _ =>
      match slot.thread.pc with
      | .building name _ => file.isSome || noOrphan s slot.call name
      | _ => true
  | _ => true

/-- A call that gives up its create must not leave the entry, and one that gives
up its rollback must have deleted it. -/
def attemptKeeps (s : Etcd) (slot : JoinSlot) (a : Attempt) : Bool :=
  match slot.thread.pc with
  | .creating name _ _ =>
      !a.givesUp slot.thread.tries || hasURL s.members slot.call.peerUrl ||
        (peerIp s.kv name ≠ some slot.call.joinerIp && !a.reaches)
  | .rollingBack name _ =>
      !a.givesUp slot.thread.tries || a.reaches || noOrphan s slot.call name
  | _ => true

/-- A call of the crashed daemon must not leave its entry without its member. -/
def crashKeeps (w : World) (d : ℕ) : Bool :=
  w.joins.entries.all fun e =>
    e.2.daemon ≠ d || (pendingName e.2.thread.pc).all fun name => noOrphan w.etcd e.2.call name

/-- Some call is adding this peer. -/
def pendingFor (w : World) (name ip : String) : Bool :=
  w.joins.entries.any fun e => pendingName e.2.thread.pc = some name && e.2.call.joinerIp = ip

/-- A job must not delete the entry a join stands on, nor remove the member of a
peer in the topology that no call is adding. -/
def jobKeeps (port : ℤ) (w : World) (slot : RemovalSlot) : Bool :=
  match slot.thread.pc with
  | .deleting t => unclaimed w none t.name
  | .removing _ memberId =>
      w.etcd.members.all fun m =>
        m.id ≠ memberId ||
          (parseTopology (withPrefix TOPOLOGY_PREFIX w.etcd.kv)).all fun e =>
            (ipOf e.2).all fun ip => memberUrl port ip ∉ m.peerURLs || pendingFor w e.1 ip
  | _ => true

def keepsMembers (port : ℤ) (w : World) : Act → Bool
  | .joinInput id i => (w.joins.get id).all fun slot => inputKeeps w.etcd slot i
  | .joinAttempt id _ a => (w.joins.get id).all fun slot => attemptKeeps w.etcd slot a
  | .removalAttempt id a => !a.reaches || (w.removals.get id).all (jobKeeps port w)
  | .crash d => crashKeeps w d
  | _ => true

/-- Joins one after another, with the cluster's port, and jobs. -/
def oneByOne (port : ℤ) (w : World) : Act → Bool
  | .startJoin _ _ call =>
      call.config.etcdPeerPort = port && w.joins.entries.all fun e => !running e.2.thread.pc
  | .bootstrapStarts | .registerTime _ | .registerAttempt _ => false
  | _ => true

/-! ## Counting URLs -/

theorem hasURL_iff {ms : List Member} {url : String} :
    hasURL ms url = true ↔ 0 < urlCount ms url := by
  simp [hasURL, urlCount, List.count_pos_iff]

theorem urlCount_add (ms : List Member) (id : ℕ) (url u : String) :
    urlCount (ms ++ [⟨id, "", [url]⟩]) u = urlCount ms u + if url = u then 1 else 0 := by
  simp [urlCount, List.count_append, List.count_singleton]

theorem urlCount_filter_le (ms : List Member) (p : Member → Bool) (url : String) :
    urlCount (ms.filter p) url ≤ urlCount ms url := by
  induction ms with
  | nil => exact le_rfl
  | cons m ms ih =>
      simp only [urlCount, List.filter_cons, List.flatMap_cons, List.count_append] at ih ⊢
      split_ifs
      · simp only [List.flatMap_cons, List.count_append]
        omega
      · omega

theorem urlCount_startMember (ms : List Member) (memberId : ℕ) (name url : String) :
    urlCount (ms.map (startMember memberId name)) url = urlCount ms url := by
  have hsame : ∀ m, (startMember memberId name m).peerURLs = m.peerURLs := by
    intro m
    unfold startMember
    split_ifs <;> rfl
  simp only [urlCount, List.flatMap_map, hsame]

/-! ## The store and one running call -/

/-- Every entry has an ip of its own, and no URL occurs twice. -/
structure Sound (s : Etcd) : Prop where
  valid : ∀ name value, s.kv.get (TOPOLOGY_PREFIX ++ name) = some value →
    ∃ ip, textIp value = some ip
  distinct : ∀ m n ip, peerIp s.kv m = some ip → peerIp s.kv n = some ip → m = n
  once : ∀ url, urlCount s.members url ≤ 1

/-- Between joins every entry has its member. -/
structure Settled (port : ℤ) (s : Etcd) : Prop extends Sound s where
  member : ∀ name ip, peerIp s.kv name = some ip → hasURL s.members (memberUrl port ip) = true

/-- Every info of a topology as read has an ip. -/
def AllIps (parsed : List (String × Json)) : Prop := ∀ e ∈ parsed, ∃ ip, ipOf e.2 = some ip

/-- What the store holds for a call at each of its points. -/
def Stands (kv : OrderedMap String String) (c : JoinCall) : JoinPc → Prop
  | .rejoining name _ | .adding name _ => peerIp kv name = some c.joinerIp
  | .stamping name parsed => (∀ m, peerIp kv m ≠ some c.joinerIp) ∧
      kv.get (TOPOLOGY_PREFIX ++ name) = none ∧ AllIps parsed
  | .creating name parsed value => (∀ m, peerIp kv m = some c.joinerIp → m = name) ∧
      (kv.get (TOPOLOGY_PREFIX ++ name) = none ∨ peerIp kv name = some c.joinerIp) ∧
      AllIps parsed ∧ textIp value = some c.joinerIp
  | .building name parsed => peerIp kv name = some c.joinerIp ∧ AllIps parsed
  | .rollingBack name _ =>
      kv.get (TOPOLOGY_PREFIX ++ name) = none ∨ peerIp kv name = some c.joinerIp
  | _ => True

/-- While a call runs, only the entry it is adding may lack its member. -/
structure Good (port : ℤ) (s : Etcd) (c : JoinCall) (pc : JoinPc) : Prop extends Sound s where
  member : ∀ name ip, peerIp s.kv name = some ip →
    hasURL s.members (memberUrl port ip) = true ∨ pendingName pc = some name ∧ c.joinerIp = ip
  stands : Stands s.kv c pc

theorem peerIp_eq_some {kv : OrderedMap String String} {name ip : String} :
    peerIp kv name = some ip ↔
      ∃ value, kv.get (TOPOLOGY_PREFIX ++ name) = some value ∧ textIp value = some ip := by
  unfold peerIp entryOf textIp
  cases kv.get (TOPOLOGY_PREFIX ++ name) with
  | none => simp
  | some value => simp

theorem Settled.good {port : ℤ} {s : Etcd} (h : Settled port s) {c : JoinCall} {pc : JoinPc}
    (hpc : Stands s.kv c pc) : Good port s c pc :=
  ⟨h.toSound, fun name ip hp => .inl (h.member name ip hp), hpc⟩

/-- A call may end once its entry is gone or its member is there. -/
theorem Good.settled {port : ℤ} {s : Etcd} {c : JoinCall} {pc : JoinPc} (h : Good port s c pc)
    (hport : c.config.etcdPeerPort = port)
    (hend : ∀ name, pendingName pc = some name → noOrphan s c name = true) : Settled port s := by
  refine ⟨h.toSound, ?_⟩
  intro name ip hp
  rcases h.member name ip hp with hurl | ⟨hname, hip⟩
  · exact hurl
  · have hno := hend name hname
    subst hip
    subst hport
    have hurl : hasURL s.members c.peerUrl = true := by simpa [noOrphan, hp] using hno
    exact hurl

/-- Moving on to a point that keeps the pending name. -/
theorem Good.goto {port : ℤ} {s : Etcd} {c : JoinCall} {pc qc : JoinPc} (h : Good port s c pc)
    (hname : pendingName qc = pendingName pc) (hstands : Stands s.kv c qc) : Good port s c qc :=
  ⟨h.toSound, fun name ip hp => hname ▸ h.member name ip hp, hstands⟩

/-! ## What the requests do to the store -/

/-- Creating a fresh entry. -/
theorem Sound.create {s : Etcd} (h : Sound s) (newId : ℕ) {name value ip : String}
    (hvalue : textIp value = some ip) (honly : ∀ m, peerIp s.kv m = some ip → m = name) :
    Sound (serve newId s (.putIfAbsent (TOPOLOGY_PREFIX ++ name) value)).1 := by
  rw [serve_putIfAbsent]
  split_ifs with hnone
  · refine ⟨?_, ?_, h.once⟩
    · intro m v hm
      rw [OrderedMap.get_put] at hm
      split_ifs at hm with hkey
      · cases hm
        exact ⟨ip, hvalue⟩
      · exact h.valid m v hm
    · intro m n i hm hn
      rw [peerIp_put] at hm hn
      split_ifs at hm hn with h₁ h₂ h₂
      · rw [← h₁, ← h₂]
      · rw [hvalue] at hm
        cases hm
        exact h₁ ▸ (honly n hn).symm
      · rw [hvalue] at hn
        cases hn
        exact h₂ ▸ honly m hm
      · exact h.distinct m n i hm hn
  · exact h

theorem Sound.erase {s : Etcd} (h : Sound s) (name : String) :
    Sound ⟨s.kv.erase (TOPOLOGY_PREFIX ++ name), s.members⟩ := by
  refine ⟨?_, ?_, h.once⟩
  · intro m v hm
    rw [OrderedMap.get_erase] at hm
    split_ifs at hm
    exact h.valid m v hm
  · intro m n i hm hn
    rw [peerIp_erase] at hm hn
    split_ifs at hm hn
    exact h.distinct m n i hm hn

theorem Sound.addMember {s : Etcd} (h : Sound s) (newId : ℕ) {url : String}
    (hnew : hasURL s.members url = false) :
    Sound ⟨s.kv, s.members ++ [⟨newId, "", [url]⟩]⟩ := by
  refine ⟨h.valid, h.distinct, ?_⟩
  intro u
  change urlCount (s.members ++ [⟨newId, "", [url]⟩]) u ≤ 1
  rw [urlCount_add]
  split_ifs with hu
  · have hzero : ¬ 0 < urlCount s.members url := by
      rw [← hasURL_iff, hnew]
      exact Bool.false_ne_true
    subst hu
    omega
  · exact h.once u

theorem peerIp_of_erase {kv : OrderedMap String String} {name m ip : String}
    (h : peerIp (kv.erase (TOPOLOGY_PREFIX ++ name)) m = some ip) :
    name ≠ m ∧ peerIp kv m = some ip := by
  rw [peerIp_erase] at h
  split_ifs at h with hname
  exact ⟨hname, h⟩

/-- Deleting an entry the call does not stand on. -/
theorem Good.erase {port : ℤ} {s : Etcd} {c : JoinCall} {pc : JoinPc} (h : Good port s c pc)
    {name : String} (hname : claimedName pc ≠ some name) :
    Good port ⟨s.kv.erase (TOPOLOGY_PREFIX ++ name), s.members⟩ c pc := by
  refine ⟨h.toSound.erase name, fun m ip hm => h.member m ip (peerIp_of_erase hm).2, ?_⟩
  have hkeep : ∀ m, claimedName pc = some m → peerIp s.kv m = some c.joinerIp →
      peerIp (s.kv.erase (TOPOLOGY_PREFIX ++ name)) m = some c.joinerIp := by
    intro m hm hip
    have hne : name ≠ m := by
      intro he
      exact hname (he ▸ hm)
    rw [peerIp_erase, if_neg hne]
    exact hip
  have hfree : ∀ m, s.kv.get (TOPOLOGY_PREFIX ++ m) = none →
      (s.kv.erase (TOPOLOGY_PREFIX ++ name)).get (TOPOLOGY_PREFIX ++ m) = none := by
    intro m hm
    rw [OrderedMap.get_erase]
    split_ifs
    · rfl
    · exact hm
  have hown : ∀ m, s.kv.get (TOPOLOGY_PREFIX ++ m) = none ∨ peerIp s.kv m = some c.joinerIp →
      (s.kv.erase (TOPOLOGY_PREFIX ++ name)).get (TOPOLOGY_PREFIX ++ m) = none ∨
        peerIp (s.kv.erase (TOPOLOGY_PREFIX ++ name)) m = some c.joinerIp := by
    intro m hm
    rcases hm with hm | hm
    · exact .inl (hfree m hm)
    · by_cases he : name = m
      · subst he
        exact .inl (OrderedMap.get_erase_self _ _)
      · refine .inr ?_
        rw [peerIp_erase, if_neg he]
        exact hm
  have hs := h.stands
  cases pc with
  | rejoining m parsed => exact hkeep m rfl hs
  | adding m env => exact hkeep m rfl hs
  | building m parsed => exact ⟨hkeep m rfl hs.1, hs.2⟩
  | stamping m parsed =>
      exact ⟨fun k hk => hs.1 k (peerIp_of_erase hk).2, hfree m hs.2.1, hs.2.2⟩
  | creating m parsed value =>
      exact ⟨fun k hk => hs.1 k (peerIp_of_erase hk).2, hown m hs.2.1, hs.2.2⟩
  | rollingBack m cause => exact hown m hs
  | _ => trivial

theorem Settled.erase {port : ℤ} {s : Etcd} (h : Settled port s) (name : String) :
    Settled port ⟨s.kv.erase (TOPOLOGY_PREFIX ++ name), s.members⟩ :=
  ⟨h.toSound.erase name, fun m ip hm => h.member m ip (peerIp_of_erase hm).2⟩

/-- Members may change as long as no URL is lost or repeated. -/
theorem Good.members {port : ℤ} {s : Etcd} {c : JoinCall} {pc : JoinPc} (h : Good port s c pc)
    {ms : List Member} (honce : ∀ url, urlCount ms url ≤ 1)
    (hkeep : ∀ name ip, peerIp s.kv name = some ip →
      hasURL s.members (memberUrl port ip) = true → hasURL ms (memberUrl port ip) = true ∨
        pendingName pc = some name ∧ c.joinerIp = ip) :
    Good port ⟨s.kv, ms⟩ c pc := by
  refine ⟨⟨h.valid, h.distinct, honce⟩, ?_, h.stands⟩
  intro name ip hp
  rcases h.member name ip hp with hurl | hpend
  · exact hkeep name ip hp hurl
  · exact .inr hpend

theorem hasURL_append {ms : List Member} {url : String} (m : Member) (h : hasURL ms url = true) :
    hasURL (ms ++ [m]) url = true := by
  simp only [hasURL, List.any_append, Bool.or_eq_true] at h ⊢
  exact .inl h

/-- What a call's own request does to the store. -/
theorem Good.served {port : ℤ} {s : Etcd} {c : JoinCall} {pc : JoinPc} (h : Good port s c pc)
    (newId : ℕ) (a : Attempt) {r : Request} (hr : c.request pc = some r) :
    Good port (if a.reaches then (serve newId s r).1 else s) c pc := by
  split_ifs
  · cases pc with
    | polling deadline =>
        cases hr
        exact h
    | reading =>
        cases hr
        exact h
    | creating name parsed value =>
        cases hr
        obtain ⟨honly, hfree, hall, hvalue⟩ := h.stands
        have hsound := h.toSound.create newId hvalue honly
        have hcreated := putIfAbsent_creates newId hvalue hfree
        refine ⟨hsound, ?_, ?_⟩
        · intro m ip hm
          by_cases hme : m = name
          · subst hme
            rw [hcreated] at hm
            exact .inr ⟨rfl, Option.some.inj hm⟩
          · rw [serve_putIfAbsent] at hm ⊢
            split_ifs at hm ⊢
            · rw [peerIp_put, if_neg (Ne.symm hme)] at hm
              exact h.member m ip hm
            · exact h.member m ip hm
        · refine ⟨?_, .inr hcreated, hall, hvalue⟩
          intro m hm
          exact hsound.distinct m name _ hm hcreated
    | adding name env =>
        cases hr
        simp only [serve, List.any_cons, List.any_nil, Bool.or_false]
        split_ifs with hurl
        · exact h
        · have hnew : hasURL s.members c.peerUrl = false := by simpa using hurl
          refine h.members (h.toSound.addMember newId hnew).once ?_
          intro name ip _ hu
          exact .inl (hasURL_append _ hu)
    | rollingBack name cause =>
        cases hr
        exact h.erase (fun he => by cases he)
    | _ => cases hr
  · exact h

/-! ## The steps of a call -/

theorem Good.ended {port : ℤ} {s : Etcd} {c : JoinCall} {pc qc : JoinPc} (h : Good port s c pc)
    (hport : c.config.etcdPeerPort = port)
    (hend : ∀ name, pendingName pc = some name → noOrphan s c name = true)
    (hqc : running qc = false) : Good port s c qc := by
  refine (h.settled hport hend).good ?_
  cases qc <;> trivial

/-- A call on its own. -/
theorem Good.proceed {port : ℤ} {s : Etcd} {c : JoinCall} {pc qc : JoinPc} {i : JoinCall.Input}
    (h : Good port s c pc) (hport : c.config.etcdPeerPort = port) {d tries : ℕ}
    (hkeeps : inputKeeps s ⟨d, c, ⟨pc, tries⟩⟩ i = true) (hstep : c.Proceeds pc i qc) :
    Good port s c qc := by
  cases hstep with
  | lock now => exact h.goto rfl trivial
  | poll hnow => exact h.goto rfl trivial
  | timeout hnow => exact h.goto rfl trivial
  | rejoined henv => exact h.goto rfl trivial
  | rejoinFailed => exact h.goto rfl trivial
  | stamp =>
      obtain ⟨hnone, hfree, hall⟩ := h.stands
      refine ⟨h.toSound, ?_, fun m hm => absurd hm (hnone m), .inl hfree, hall,
        c.textIp_infoValue _ _⟩
      intro name ip hp
      exact .inl ((h.member name ip hp).resolve_right (fun hn => by cases hn.1))
  | built henv => exact h.goto rfl h.stands.1
  | @buildFailed name parsed file issuedAt e he =>
      refine h.ended hport ?_ rfl
      intro m hm
      cases hm
      simp only [inputKeeps, Bool.or_eq_true] at hkeeps
      rcases hkeeps with hfile | hno
      · obtain ⟨text, htext⟩ := Option.isSome_iff_exists.mp hfile
        obtain ⟨env, henv⟩ := c.joinerEnv_ok name h.stands.2 text issuedAt
        rw [← htext, he] at henv
        cases henv
      · exact hno

/-- What a call does once it has read the topology. -/
theorem Good.chosen {port : ℤ} {s : Etcd} {c : JoinCall} (h : Good port s c .reading) :
    Good port s c (c.chosen (parseTopology (withPrefix TOPOLOGY_PREFIX s.kv))) := by
  have hname : ∀ pc, pendingName pc = none → Stands s.kv c pc → Good port s c pc :=
    fun pc hpc hs => h.goto hpc hs
  rcases c.chosen_cases (parseTopology (withPrefix TOPOLOGY_PREFIX s.kv)) with
    ⟨e, he⟩ | ⟨name, hfind, he⟩ | ⟨hfind, he⟩
  · rw [he]
    exact hname _ rfl trivial
  · rw [he]
    obtain ⟨info, hm, hip⟩ := findNodeNameByIp_some hfind
    refine hname _ rfl ?_
    change peerIp s.kv name = some c.joinerIp
    rw [peerIp, mem_parseTopology.mp hm]
    exact hip
  · rw [he]
    have hall := findNodeNameByIp_none hfind
    have hips : AllIps (parseTopology (withPrefix TOPOLOGY_PREFIX s.kv)) := by
      intro e hm
      have hentry := mem_parseTopology.mp hm
      obtain ⟨value, hvalue, hinfo⟩ := Option.bind_eq_some_iff.mp hentry
      obtain ⟨ip, hip⟩ := h.valid e.1 value hvalue
      exact ⟨ip, by rw [← hip, textIp, hinfo]; rfl⟩
    refine hname _ rfl ⟨?_, ?_, hips⟩
    · intro m hm
      obtain ⟨info, hinfo, hip⟩ := Option.bind_eq_some_iff.mp hm
      exact (hall _ (mem_parseTopology.mpr hinfo)).2 hip
    · by_contra hne
      obtain ⟨value, hvalue⟩ := Option.ne_none_iff_exists'.mp hne
      obtain ⟨ip, hip⟩ := h.valid _ value hvalue
      obtain ⟨info, hinfo, -⟩ := Option.bind_eq_some_iff.mp
        (peerIp_eq_some.mpr ⟨value, hvalue, hip⟩)
      have hmem := List.mem_map_of_mem (f := Prod.fst) (mem_parseTopology.mpr hinfo)
      exact allocateNextName_notMem _ hmem

/-- An attempt of a call. -/
theorem Good.attempt {port : ℤ} {s u : Etcd} {c : JoinCall} {pc qc : JoinPc} {a : Attempt}
    {d newId tries : ℕ} (h : Good port s c pc) (hport : c.config.etcdPeerPort = port)
    (hkeeps : attemptKeeps s ⟨d, c, ⟨pc, tries⟩⟩ a = true)
    (hstep : c.Attempts newId tries s pc a u qc) : Good port u c qc := by
  cases hstep with
  | again hr => exact h.served newId _ hr
  | pollFailed => exact h.goto rfl trivial
  | polled hall => exact h.goto rfl trivial
  | unhealthy hall => exact h.goto rfl trivial
  | readFailed => exact h.goto rfl trivial
  | read => exact h.chosen
  | @createFailed name parsed value a e hup =>
      refine (h.served newId a rfl).ended hport ?_ rfl
      intro m hm
      cases hm
      simp only [attemptKeeps, hup, Bool.not_true, Bool.false_or, Bool.or_eq_true,
        Bool.and_eq_true, decide_eq_true_eq] at hkeeps
      rcases hkeeps with hurl | ⟨hip, hdrop⟩
      · have hsame : (if a.reaches = true then
            (serve newId s (.putIfAbsent (TOPOLOGY_PREFIX ++ name) value)).1 else s).members =
              s.members := by
          rw [serve_putIfAbsent]
          split_ifs <;> rfl
        simp only [noOrphan, hsame, hurl, Bool.or_true]
      · have hno : ¬ a.reaches = true := by simpa using hdrop
        simp [noOrphan, if_neg hno, hip]
  | @created name parsed value =>
      have h' := h.served newId .answered rfl
      obtain ⟨-, hfree, hall, hvalue⟩ := h.stands
      exact h'.goto rfl ⟨putIfAbsent_creates newId hvalue hfree, hall⟩
  | @addFailed name env a e =>
      have h' := h.served newId a rfl
      exact h'.goto rfl (.inr h'.stands)
  | @added name env hurl =>
      have hnew := (h.toSound.addMember newId hurl).once
      have h' := h.members hnew (fun name ip _ hu => .inl (hasURL_append _ hu))
      refine h'.ended hport ?_ rfl
      intro m _
      simp [noOrphan, hasURL]
  | @rolledBack name cause a hend =>
      refine (h.served newId a rfl).ended hport ?_ rfl
      intro m hm
      cases hm
      by_cases ha : a.reaches = true
      · simp [noOrphan, ha, serve, peerIp_erase]
      · have hup : a.givesUp tries = true := by
          rcases hend with he | he
          · rw [he] at ha
            exact absurd rfl ha
          · exact he
        rw [if_neg ha]
        simpa [attemptKeeps, hup, ha] using hkeeps

/-! ## The cluster -/

/-- At most one call runs, and the store is as that call needs it. -/
structure MembersInv (port : ℤ) (w : World) : Prop where
  quiet : (∀ id slot, w.joins.get id = some slot → running slot.thread.pc = false) →
    Settled port w.etcd
  joins : ∀ id slot, w.joins.get id = some slot → running slot.thread.pc = true →
    Good port w.etcd slot.call slot.thread.pc
  alone : ∀ i j si sj, w.joins.get i = some si → w.joins.get j = some sj →
    running si.thread.pc = true → running sj.thread.pc = true → i = j
  ports : ∀ id slot, w.joins.get id = some slot → slot.call.config.etcdPeerPort = port

theorem Good.quiet {port : ℤ} {s : Etcd} {c : JoinCall} {pc : JoinPc} (h : Good port s c pc)
    (hpc : running pc = false) : Settled port s := by
  refine ⟨h.toSound, ?_⟩
  intro name ip hp
  refine (h.member name ip hp).resolve_right ?_
  intro hname
  cases pc with
  | returned r => cases hname.1
  | raised e => cases hname.1
  | _ => cases hpc

/-- The running call moves. -/
theorem MembersInv.move {port : ℤ} {w : World} (h : MembersInv port w) {id : ℕ} {slot : JoinSlot}
    {s : Etcd} {t : Thread JoinPc} (hslot : w.joins.get id = some slot)
    (hrunning : running slot.thread.pc = true) (hgood : Good port s slot.call t.pc) :
    MembersInv port (moveJoin w id slot s t) := by
  have hget : ∀ j sj, (moveJoin w id slot s t).joins.get j = some sj →
      (j = id ∧ sj = { slot with thread := t }) ∨ (j ≠ id ∧ w.joins.get j = some sj) := by
    intro j sj hj
    change (w.joins.put id { slot with thread := t }).get j = some sj at hj
    rw [OrderedMap.get_put] at hj
    split_ifs at hj with hid
    · exact .inl ⟨hid.symm, (Option.some.inj hj).symm⟩
    · exact .inr ⟨Ne.symm hid, hj⟩
  have hother : ∀ j sj, j ≠ id → w.joins.get j = some sj → running sj.thread.pc = false := by
    intro j sj hne hj
    by_contra hrun
    exact hne (h.alone j id sj slot hj hslot (by simpa using hrun) hrunning)
  refine ⟨?_, ?_, ?_, ?_⟩
  · intro hall
    exact hgood.quiet (hall id { slot with thread := t } (OrderedMap.get_put_self _ _ _))
  · intro j sj hj hrun
    rcases hget j sj hj with ⟨-, hsj⟩ | ⟨hne, hj⟩
    · subst hsj
      exact hgood
    · rw [hother j sj hne hj] at hrun
      cases hrun
  · intro i j si sj hi hj hri hrj
    have hid : ∀ k sk, (moveJoin w id slot s t).joins.get k = some sk →
        running sk.thread.pc = true → k = id := by
      intro k sk hk hrk
      rcases hget k sk hk with ⟨hkid, -⟩ | ⟨hne, hk⟩
      · exact hkid
      · rw [hother k sk hne hk] at hrk
        cases hrk
    rw [hid i si hi hri, hid j sj hj hrj]
  · intro j sj hj
    rcases hget j sj hj with ⟨-, hsj⟩ | ⟨-, hj⟩
    · subst hsj
      exact h.ports id slot hslot
    · exact h.ports j sj hj

/-- The store changes while the calls stay where they are. -/
theorem MembersInv.store {port : ℤ} {w v : World} (h : MembersInv port w)
    (hjoins : v.joins = w.joins)
    (hquiet : (∀ id slot, w.joins.get id = some slot → running slot.thread.pc = false) →
      Settled port w.etcd → Settled port v.etcd)
    (hgood : ∀ id slot, w.joins.get id = some slot → running slot.thread.pc = true →
      Good port w.etcd slot.call slot.thread.pc → Good port v.etcd slot.call slot.thread.pc) :
    MembersInv port v := by
  refine ⟨?_, ?_, ?_, ?_⟩
  · intro hall
    rw [hjoins] at hall
    exact hquiet hall (h.quiet hall)
  · intro id slot hslot hrun
    rw [hjoins] at hslot
    exact hgood id slot hslot hrun (h.joins id slot hslot hrun)
  · rw [hjoins]
    exact h.alone
  · rw [hjoins]
    exact h.ports

theorem pendingFor_spec {w : World} {name ip : String} (h : pendingFor w name ip = true) :
    ∃ id slot, w.joins.get id = some slot ∧ pendingName slot.thread.pc = some name ∧
      slot.call.joinerIp = ip := by
  obtain ⟨e, he, hp⟩ := List.any_eq_true.mp h
  simp only [Bool.and_eq_true, decide_eq_true_eq] at hp
  exact ⟨e.1, e.2, OrderedMap.mem_entries.mp he, hp.1, hp.2⟩

theorem running_of_pending {pc : JoinPc} {name : String} (h : pendingName pc = some name) :
    running pc = true := by
  cases pc <;> first | rfl | cases h

/-- A member that a job may remove: the URL of a listed peer survives, unless a
call is adding that peer. -/
theorem hasURL_filter {port : ℤ} {w : World} {slot : RemovalSlot} {t : Target} {memberId : ℕ}
    (hpc : slot.thread.pc = .removing t memberId) (hkeeps : jobKeeps port w slot = true)
    {name ip : String} (hp : peerIp w.etcd.kv name = some ip)
    (hurl : hasURL w.etcd.members (memberUrl port ip) = true) :
    hasURL (w.etcd.members.filter fun m => m.id ≠ memberId) (memberUrl port ip) = true ∨
      pendingFor w name ip = true := by
  simp only [jobKeeps, hpc] at hkeeps
  obtain ⟨m, hm, hmu⟩ := List.any_eq_true.mp hurl
  by_cases hid : m.id = memberId
  · obtain ⟨info, hinfo, hip⟩ := Option.bind_eq_some_iff.mp hp
    have hk := List.all_eq_true.mp hkeeps m hm
    simp only [hid, ne_eq, not_true_eq_false, decide_false, Bool.false_or] at hk
    have hk' := List.all_eq_true.mp hk _ (mem_parseTopology.mpr hinfo)
    simp only [hip, Option.all_some, Bool.or_eq_true, decide_eq_true_eq] at hk'
    exact .inr (hk'.resolve_left (not_not_intro (List.contains_iff_mem.mp hmu)))
  · refine .inl (List.any_eq_true.mpr ⟨m, List.mem_filter.mpr ⟨hm, ?_⟩, hmu⟩)
    simpa using hid

/-- A job's attempt. -/
theorem MembersInv.job {port : ℤ} {w v : World} (h : MembersInv port w) {slot : RemovalSlot}
    {a : Attempt} {t : Thread RemovePc} (hjoins : v.joins = w.joins)
    (hkeeps : a.reaches = true → jobKeeps port w slot = true)
    (hstep : slot.job.client.attempt 0 w.etcd slot.thread a = some (v.etcd, t)) :
    MembersInv port v := by
  obtain ⟨r, hr, hs, -⟩ := Client.attempt_cases _ hstep
  have hsame : v.etcd = w.etcd → MembersInv port v := fun he =>
    h.store hjoins (fun _ hq => he ▸ hq) (fun _ _ _ _ hg => he ▸ hg)
  by_cases ha : a.reaches = true
  · rw [if_pos ha] at hs
    have hk := hkeeps ha
    cases hpc : slot.thread.pc with
    | deleting target =>
        simp only [RemoveJob.client, RemoveJob.request, hpc, Option.some.injEq] at hr
        subst hr
        simp only [jobKeeps, hpc] at hk
        refine h.store hjoins ?_ ?_
        · intro _ hq
          rw [hs]
          exact hq.erase target.name
        · intro id js hjs _ hg
          rw [hs]
          exact hg.erase (unclaimed_spec hk hjs (by simp))
    | removing target memberId =>
        simp only [RemoveJob.client, RemoveJob.request, hpc, Option.some.injEq] at hr
        subst hr
        have hetcd : v.etcd = ⟨w.etcd.kv, w.etcd.members.filter fun m => m.id ≠ memberId⟩ ∨
            v.etcd = w.etcd := by
          rw [hs]
          simp only [serve]
          split_ifs
          · exact .inl rfl
          · exact .inr rfl
        rcases hetcd with hetcd | hetcd
        · refine h.store hjoins ?_ ?_
          · intro hall hq
            rw [hetcd]
            refine ⟨⟨hq.valid, hq.distinct, fun url =>
              (urlCount_filter_le _ _ _).trans (hq.once url)⟩, ?_⟩
            intro name ip hp
            refine (hasURL_filter hpc hk hp (hq.member name ip hp)).resolve_right ?_
            intro hpend
            obtain ⟨id, js, hjs, hname, -⟩ := pendingFor_spec hpend
            have hended := hall id js hjs
            rw [running_of_pending hname] at hended
            cases hended
          · intro id js hjs hrun hg
            rw [hetcd]
            refine hg.members (fun url => (urlCount_filter_le _ _ _).trans (hg.once url)) ?_
            intro name ip hp hurl
            refine (hasURL_filter hpc hk hp hurl).imp_right ?_
            intro hpend
            obtain ⟨id', js', hjs', hname, hip⟩ := pendingFor_spec hpend
            have hid := h.alone id' id js' js hjs' hjs (running_of_pending hname) hrun
            subst hid
            rw [hjs'] at hjs
            cases hjs
            exact ⟨hname, hip⟩
        · exact hsame hetcd
    | resolving | settling | surveying | leaderRead | listing =>
        simp only [RemoveJob.client, RemoveJob.request, hpc, Option.some.injEq] at hr
        subst hr
        exact hsame hs
    | _ =>
        simp only [RemoveJob.client, RemoveJob.request, hpc] at hr
        cases hr
  · rw [if_neg ha] at hs
    exact hsame hs

theorem running_of_proceeds {c : JoinCall} {pc qc : JoinPc} {i : JoinCall.Input}
    (h : c.Proceeds pc i qc) : running pc = true := by
  cases h <;> rfl

theorem running_of_attempts {c : JoinCall} {newId tries : ℕ} {s u : Etcd} {pc qc : JoinPc}
    {a : Attempt} (h : c.Attempts newId tries s pc a u qc) : running pc = true := by
  cases h with
  | again hr => cases pc <;> first | rfl | cases hr
  | _ => rfl

/-- Every step that keeps the conditions keeps the invariant. -/
theorem membersInv_step {port : ℤ} {w v : World} {act : Act} (h : MembersInv port w)
    (hone : oneByOne port w act = true) (hkeeps : keepsMembers port w act = true)
    (hstep : step w act = some v) : MembersInv port v := by
  cases steps_of_step hstep with
  | setLeader | startRemoval | removalInput =>
      exact h.store rfl (fun _ hq => hq) (fun _ _ _ _ hg => hg)
  | bootstrapStarts => cases hone
  | registerTime => cases hone
  | registerAttempt => cases hone
  | @startJoin id d call hleader hfree =>
      simp only [oneByOne, Bool.and_eq_true, decide_eq_true_eq] at hone
      have hall : ∀ j sj, w.joins.get j = some sj → running sj.thread.pc = false := by
        intro j sj hj
        simpa using List.all_eq_true.mp hone.2 _ (OrderedMap.mem_entries.mpr hj)
      have hsettled := h.quiet hall
      have hget : ∀ j sj, (w.joins.put id ⟨d, call, ⟨call.start, 0⟩⟩).get j = some sj →
          (j = id ∧ sj = ⟨d, call, ⟨call.start, 0⟩⟩) ∨ w.joins.get j = some sj := by
        intro j sj hj
        rw [OrderedMap.get_put] at hj
        split_ifs at hj with hid
        · exact .inl ⟨hid.symm, (Option.some.inj hj).symm⟩
        · exact .inr hj
      refine ⟨fun _ => hsettled, ?_, ?_, ?_⟩
      · intro j sj hj hrun
        rcases hget j sj hj with ⟨-, hsj⟩ | hj
        · subst hsj
          refine hsettled.good ?_
          simp only [JoinCall.start]
          split_ifs <;> trivial
        · rw [hall j sj hj] at hrun
          cases hrun
      · intro i j si sj hi hj hri hrj
        have hid : ∀ k sk, (w.joins.put id ⟨d, call, ⟨call.start, 0⟩⟩).get k = some sk →
            running sk.thread.pc = true → k = id := by
          intro k sk hk hrk
          rcases hget k sk hk with ⟨hkid, -⟩ | hk
          · exact hkid
          · rw [hall k sk hk] at hrk
            cases hrk
        rw [hid i si hi hri, hid j sj hj hrj]
      · intro j sj hj
        rcases hget j sj hj with ⟨-, hsj⟩ | hj
        · subst hsj
          exact hone.1
        · exact h.ports j sj hj
  | @joinInput id i slot pc hslot hlock hpc =>
      have hrun := running_of_proceeds hpc
      have hk : inputKeeps w.etcd slot i = true := by simpa [keepsMembers, hslot] using hkeeps
      exact h.move hslot hrun ((h.joins id slot hslot hrun).proceed (h.ports id slot hslot) hk hpc)
  | @joinAttempt id newId a slot s t hslot hnew ht =>
      have hrun := running_of_attempts ht
      have hk : attemptKeeps w.etcd slot a = true := by simpa [keepsMembers, hslot] using hkeeps
      exact h.move hslot hrun ((h.joins id slot hslot hrun).attempt (h.ports id slot hslot) hk ht)
  | @removalAttempt id a slot s t hslot ht =>
      refine h.job rfl ?_ ht
      intro ha
      simpa [keepsMembers, ha, hslot] using hkeeps
  | @crash d =>
      have hkept : ∀ j sj, (w.joins.filterValues fun slot => slot.daemon ≠ d).get j = some sj →
          w.joins.get j = some sj := fun j sj hj => (OrderedMap.get_filterValues.mp hj).1
      refine ⟨?_, fun j sj hj => h.joins j sj (hkept j sj hj),
        fun i j si sj hi hj => h.alone i j si sj (hkept i si hi) (hkept j sj hj),
        fun j sj hj => h.ports j sj (hkept j sj hj)⟩
      intro hall
      by_cases hany : ∃ id slot, w.joins.get id = some slot ∧ running slot.thread.pc = true
      · obtain ⟨id, slot, hslot, hrun⟩ := hany
        have hd : slot.daemon = d := by
          by_contra hne
          have hended := hall id slot
            (OrderedMap.get_filterValues.mpr ⟨hslot, decide_eq_true hne⟩)
          rw [hrun] at hended
          cases hended
        refine (h.joins id slot hslot hrun).settled (h.ports id slot hslot) ?_
        intro name hname
        have hk := List.all_eq_true.mp hkeeps _ (OrderedMap.mem_entries.mpr hslot)
        simpa [hd, hname] using hk
      · refine h.quiet ?_
        intro id slot hslot
        by_contra hrun
        exact hany ⟨id, slot, hslot, by simpa using hrun⟩
  | @memberStarts memberId name =>
      have hcount := urlCount_startMember w.etcd.members memberId name
      have hurl : ∀ url, hasURL w.etcd.members url = true →
          hasURL (w.etcd.members.map (startMember memberId name)) url = true := by
        intro url hu
        rw [hasURL_iff, hcount]
        exact hasURL_iff.mp hu
      refine h.store rfl ?_ ?_
      · intro _ hq
        exact ⟨⟨hq.valid, hq.distinct, fun url => (hcount url).trans_le (hq.once url)⟩,
          fun m ip hp => hurl _ (hq.member m ip hp)⟩
      · intro _ _ _ _ hg
        exact hg.members (fun url => (hcount url).trans_le (hg.once url))
          (fun m ip _ hu => .inl (hurl _ hu))

/-- A peer whose entry and member are there is joined. -/
theorem Sound.joined {port : ℤ} {s : Etcd} (h : Sound s) {name ip : String}
    (hp : peerIp s.kv name = some ip) (hurl : hasURL s.members (memberUrl port ip) = true) :
    Joined port s name ip := by
  refine ⟨?_, ?_⟩
  · intro m
    constructor
    · intro hm
      exact h.distinct m name ip hm hp
    · intro hm
      rw [hm]
      exact hp
  · have hle := h.once (memberUrl port ip)
    have hpos := hasURL_iff.mp hurl
    omega

/-- A re-join returns only for a peer that is joined. -/
theorem Good.rejoined {port : ℤ} {s : Etcd} {c : JoinCall} {name : String}
    {parsed : List (String × Json)} (h : Good port s c (.rejoining name parsed)) :
    Joined port s name c.joinerIp := by
  have hp : peerIp s.kv name = some c.joinerIp := h.stands
  exact h.toSound.joined hp ((h.member name _ hp).resolve_right (fun hn => by cases hn.1))

/-- A new member's answer leaves its peer joined. -/
theorem Good.added {port : ℤ} {s : Etcd} {c : JoinCall} {name env : String} {newId : ℕ}
    (h : Good port s c (.adding name env)) (hport : c.config.etcdPeerPort = port)
    (hurl : hasURL s.members c.peerUrl = false) :
    Joined port ⟨s.kv, s.members ++ [⟨newId, "", [c.peerUrl]⟩]⟩ name c.joinerIp := by
  subst hport
  refine (h.toSound.addMember newId hurl).joined h.stands ?_
  change hasURL (s.members ++ [⟨newId, "", [c.peerUrl]⟩]) c.peerUrl = true
  simp [hasURL]

/-- A step that makes a call return leaves its peer joined. -/
theorem joined_of_step {port : ℤ} {w v : World} {act : Act} (h : MembersInv port w)
    (hstep : step w act = some v) {id : ℕ} {slot : JoinSlot} {r : JoinResult}
    (hslot : v.joins.get id = some slot) (hret : slot.thread.pc = .returned r)
    (hnew : ∀ old, w.joins.get id = some old → old.thread.pc ≠ .returned r) :
    Joined port v.etcd r.nodeName slot.call.joinerIp := by
  have hold : w.joins.get id ≠ some slot := fun ho => hnew slot ho hret
  cases steps_of_step hstep with
  | setLeader | startRemoval | removalInput | removalAttempt | bootstrapStarts | registerTime
  | registerAttempt | memberStarts => exact absurd hslot hold
  | crash => exact absurd (OrderedMap.get_filterValues.mp hslot).1 hold
  | @startJoin id' d call hleader hfree =>
      change (w.joins.put id' ⟨d, call, ⟨call.start, 0⟩⟩).get id = some slot at hslot
      rw [OrderedMap.get_put] at hslot
      split_ifs at hslot with hid
      · cases hslot
        simp only [JoinCall.start] at hret
        split_ifs at hret
      · exact absurd hslot hold
  | @joinInput id' i slot' pc hslot' hlock hpc =>
      change (w.joins.put id' { slot' with thread := ⟨pc, 0⟩ }).get id = some slot at hslot
      rw [OrderedMap.get_put] at hslot
      split_ifs at hslot with hid
      · cases hslot
        have hgood := h.joins id' slot' hslot' (running_of_proceeds hpc)
        obtain ⟨d, c, pc', tries⟩ := slot'
        change pc = .returned r at hret
        subst hret
        cases hpc with
        | rejoined henv => exact hgood.rejoined
      · exact absurd hslot hold
  | @joinAttempt id' newId a slot' s t hslot' hfresh ht =>
      change (w.joins.put id' { slot' with thread := t }).get id = some slot at hslot
      rw [OrderedMap.get_put] at hslot
      split_ifs at hslot with hid
      · cases hslot
        have hgood := h.joins id' slot' hslot' (running_of_attempts ht)
        have hport := h.ports id' slot' hslot'
        obtain ⟨d, c, pc', tries⟩ := slot'
        obtain ⟨qc, tries'⟩ := t
        change qc = .returned r at hret
        cases ht with
        | again hr =>
            subst hret
            cases hr
        | read => exact absurd hret (c.chosen_ne_returned _ r)
        | added hurl =>
            cases hret
            exact hgood.added hport hurl
        | _ => cases hret
      · exact absurd hslot hold

/-! ## The runs -/

/-- A cluster whose bootstrap peer is registered, before any request. -/
def registered (etcd : Etcd) (isLeader : ℕ → Bool) (bootstrap : DaemonConfig) : World :=
  { fresh etcd isLeader bootstrap with registration := ⟨.ended, 0⟩ }

theorem membersInv_registered {port : ℤ} {etcd : Etcd} (h : Settled port etcd)
    (isLeader : ℕ → Bool) (bootstrap : DaemonConfig) :
    MembersInv port (registered etcd isLeader bootstrap) where
  quiet := fun _ => h
  joins := fun id slot hslot => by cases hslot
  alone := fun i j si sj hi => by cases hi
  ports := fun id slot hslot => by cases hslot

/-- The arguments and the result of a call that has returned. -/
def returnedBy (w : World) (id : ℕ) : Option (JoinCall × JoinResult) :=
  match w.joins.get id with
  | some ⟨_, call, ⟨.returned r, _⟩⟩ => some (call, r)
  | _ => none

theorem returnedBy_eq_some {w : World} {id : ℕ} {c : JoinCall} {r : JoinResult} :
    returnedBy w id = some (c, r) ↔
      ∃ slot, w.joins.get id = some slot ∧ slot.call = c ∧ slot.thread.pc = .returned r := by
  unfold returnedBy
  constructor
  · intro h
    split at h
    · next d call r' tries hslot =>
        cases h
        exact ⟨_, hslot, rfl, rfl⟩
    · cases h
  · intro h
    obtain ⟨⟨d, call, pc, tries⟩, hslot, hc, hr⟩ := h
    cases hc
    cases hr
    rw [hslot]

/-- In every run of joins one after another and jobs that keeps the conditions,
a step that makes a call return leaves its peer joined: exactly one entry with
its ip, under the returned name, and its peer URL once in the membership. -/
theorem joined_run {port : ℤ} {etcd : Etcd} {isLeader : ℕ → Bool} {bootstrap : DaemonConfig}
    {acts : List Act} {act : Act} {w v : World} {id : ℕ} {c : JoinCall} {r : JoinResult}
    (hstart : Settled port etcd)
    (hkeeps : GuardedRuns.Keeps step
      (fun w act => oneByOne port w act = true ∧ keepsMembers port w act = true)
      (registered etcd isLeader bootstrap) acts)
    (hrun : GuardedRuns.run step (registered etcd isLeader bootstrap) acts = some w)
    (hstep : step w act = some v)
    (hbefore : returnedBy w id = none) (hafter : returnedBy v id = some (c, r)) :
    Joined port v.etcd r.nodeName c.joinerIp := by
  have hinv : MembersInv port w :=
    GuardedRuns.run_guarded (fun _ _ _ h hk hs => membersInv_step h hk.1 hk.2 hs)
      (membersInv_registered hstart isLeader bootstrap) hkeeps hrun
  obtain ⟨slot, hslot, hc, hret⟩ := returnedBy_eq_some.mp hafter
  subst hc
  refine joined_of_step hinv hstep hslot hret ?_
  intro old hold hpc
  rw [returnedBy_eq_some.mpr ⟨old, hold, rfl, hpc⟩] at hbefore
  cases hbefore

/-- A test for a settled store. -/
def settledCheck (port : ℤ) (s : Etcd) : Bool :=
  ((withPrefix TOPOLOGY_PREFIX s.kv).all fun e =>
    (textIp e.2).any fun ip => hasURL s.members (memberUrl port ip)) &&
  ((withPrefix TOPOLOGY_PREFIX s.kv).all fun e => (withPrefix TOPOLOGY_PREFIX s.kv).all fun f =>
    e.1 = f.1 || textIp e.2 ≠ textIp f.2) &&
  (s.members.flatMap Member.peerURLs).all fun url => urlCount s.members url ≤ 1

theorem settled_of_check {port : ℤ} {s : Etcd} (h : settledCheck port s = true) :
    Settled port s := by
  simp only [settledCheck, Bool.and_eq_true, List.all_eq_true, Option.any_eq_true,
    Bool.or_eq_true, decide_eq_true_eq] at h
  obtain ⟨⟨hmember, hdistinct⟩, honce⟩ := h
  have hmem : ∀ name value, s.kv.get (TOPOLOGY_PREFIX ++ name) = some value →
      (TOPOLOGY_PREFIX ++ name, value) ∈ withPrefix TOPOLOGY_PREFIX s.kv := by
    intro name value hv
    exact List.mem_filter.mpr
      ⟨OrderedMap.mem_entries.mpr hv, PythonText.startsWith_append TOPOLOGY_PREFIX name⟩
  refine ⟨⟨?_, ?_, ?_⟩, ?_⟩
  · intro name value hv
    obtain ⟨ip, hip, -⟩ := hmember _ (hmem name value hv)
    exact ⟨ip, hip⟩
  · intro m n ip hm hn
    obtain ⟨v, hv, hvi⟩ := peerIp_eq_some.mp hm
    obtain ⟨u, hu, hui⟩ := peerIp_eq_some.mp hn
    have hkey := hdistinct _ (hmem m v hv) _ (hmem n u hu)
    rw [hvi, hui] at hkey
    exact append_left_injective (hkey.resolve_right (fun hne => hne rfl))
  · intro url
    by_cases hin : url ∈ s.members.flatMap Member.peerURLs
    · exact honce url hin
    · have hzero : urlCount s.members url = 0 := List.count_eq_zero.mpr hin
      omega
  · intro name ip hp
    obtain ⟨v, hv, hvi⟩ := peerIp_eq_some.mp hp
    obtain ⟨i, hi, hurl⟩ := hmember _ (hmem name v hv)
    rw [hvi] at hi
    cases hi
    exact hurl

/-- A second join of 10.0.0.2, up to its last step. -/
def secondJoin : List Act :=
  [.startJoin 2 1 ⟨bootConfig, "10.0.0.2", none⟩, .joinInput 2 (.acquired 0),
    .joinInput 2 (.monotonic 0), .joinAttempt 2 0 .answered, .joinAttempt 2 0 .answered]

def lastStep : Act := .joinInput 2 (.clusterEnv (some "") "")

def oneMemberWorld : World := registered oneMember (fun _ => true) bootConfig

/-- The second join returns, with a test of the store it leaves and its result. -/
def secondReturns (acts : List Act) (test : Etcd → JoinCall × JoinResult → Bool) : Bool :=
  (GuardedRuns.run step oneMemberWorld acts).any fun w => (step w lastStep).any fun v =>
    (returnedBy w 2).isNone && (returnedBy v 2).any (test v.etcd)

theorem secondReturns_spec {acts : List Act} {test : Etcd → JoinCall × JoinResult → Bool}
    (h : secondReturns acts test = true) :
    ∃ w v c r, GuardedRuns.run step oneMemberWorld acts = some w ∧ step w lastStep = some v ∧
      returnedBy w 2 = none ∧ returnedBy v 2 = some (c, r) ∧ test v.etcd (c, r) = true := by
  obtain ⟨w, hw, h⟩ := (Option.any_eq_true _ _).mp h
  obtain ⟨v, hv, h⟩ := (Option.any_eq_true _ _).mp h
  obtain ⟨hbefore, h⟩ := Bool.and_eq_true_iff.mp h
  obtain ⟨⟨c, r⟩, hr, htest⟩ := (Option.any_eq_true _ _).mp h
  exact ⟨w, v, c, r, hw, hv, Option.isNone_iff_eq_none.mp hbefore, hr, htest⟩

theorem joined_run_again :
    ∃ w v c r, GuardedRuns.run step oneMemberWorld (joins 1 2 "10.0.0.2" ++ secondJoin) = some w ∧
      step w lastStep = some v ∧ returnedBy v 2 = some (c, r) ∧ c.joinerIp = "10.0.0.2" ∧
      Joined 2380 v.etcd r.nodeName c.joinerIp := by
  have hkeeps : GuardedRuns.Keeps step
      (fun w act => oneByOne 2380 w act = true ∧ keepsMembers 2380 w act = true) oneMemberWorld
      (joins 1 2 "10.0.0.2" ++ secondJoin) := by
    decide +kernel
  have hreturns : secondReturns (joins 1 2 "10.0.0.2" ++ secondJoin)
      (fun _ x => x.1.joinerIp = "10.0.0.2") = true := by
    decide +kernel
  obtain ⟨w, v, c, r, hw, hv, hbefore, hr, hip⟩ := secondReturns_spec hreturns
  have hsettled : Settled 2380 oneMember := settled_of_check (by decide +kernel)
  exact ⟨w, v, c, r, hw, hv, hr, of_decide_eq_true hip,
    joined_run hsettled hkeeps hw hv hbefore hr⟩

/-- A first join whose daemon crashes between the entry and the member. -/
def crashedJoin : List Act :=
  [.startJoin 1 1 ⟨bootConfig, "10.0.0.2", none⟩, .joinInput 1 (.acquired 0),
    .joinInput 1 (.monotonic 0), .joinAttempt 1 2 .answered, .joinAttempt 1 2 .answered,
    .joinInput 1 (.time ⟨1, 0⟩), .joinAttempt 1 2 .answered, .crash 1]

/-- After such a crash the second join returns although the member was never
added. -/
theorem rejoin_without_member :
    ∃ w v c r, GuardedRuns.run step oneMemberWorld (crashedJoin ++ secondJoin) = some w ∧
      step w lastStep = some v ∧ returnedBy w 2 = none ∧ returnedBy v 2 = some (c, r) ∧
        ¬ Joined 2380 v.etcd r.nodeName c.joinerIp := by
  have hreturns : secondReturns (crashedJoin ++ secondJoin)
      (fun s x => urlCount s.members (memberUrl 2380 x.1.joinerIp) = 0) = true := by
    decide +kernel
  obtain ⟨w, v, c, r, hw, hv, hbefore, hr, hzero⟩ := secondReturns_spec hreturns
  refine ⟨w, v, c, r, hw, hv, hbefore, hr, ?_⟩
  intro hjoined
  have hone := hjoined.2
  rw [of_decide_eq_true hzero] at hone
  cases hone

end MilvusOnprem.Cluster
