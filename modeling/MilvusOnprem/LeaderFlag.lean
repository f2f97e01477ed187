import MilvusOnprem.LeaderLease
import MilvusOnprem.PutIfAbsent

/-!
# The leader key and the flag of its writer

The other direction of the leader's lease: as long as the key holds a value under
a lease that was granted to a running elector, this elector has its flag. The
leases that etcd has granted to an elector since its daemon started are recorded
for the statements only.
-/
namespace MilvusOnprem.LeaderElection

open EtcdClient GuardedRuns LeaseStore

/-- A system with the leases granted to its electors. -/
structure Ledger where
  world : World
  owned : ℕ → List ℕ

/-- The leases granted to the electors after a step. -/
def ownedAfter (w : World) (owned : ℕ → List ℕ) : Act → ℕ → List ℕ
  | .attempt i .answered _ =>
      if (w.electors[i]?).map Elector.pc = some .granting then
        Function.update owned i (w.store.nextLease :: owned i)
      else owned
  | .daemon i .crash | .daemon i .restart => Function.update owned i []
  | _ => owned

namespace Ledger

def step (l : Ledger) (act : Act) : Option Ledger :=
  (LeaderElection.step l.world act).map fun v => ⟨v, ownedAfter l.world l.owned act⟩

def start (w : World) : Ledger := ⟨w, fun _ => []⟩

end Ledger

/-- The points between the etcd calls of a run that has not ended. -/
def Pc.betweenCalls : Pc → Bool
  | .top | .holding | .awaiting _ | .backingOff => true
  | _ => false

/-- Whoever runs and has not been stopped has its flag while the key holds a value
under a live lease of its own. -/
def FlagFollowsKey (l : Ledger) : Prop :=
  ∀ (i : ℕ) (e : Elector), l.world.electors[i]? = some e → e.pc.betweenCalls = true →
    e.stopping = false → ∀ v lease, lease ∈ l.owned i →
      l.world.store.leader = some (v, lease) → l.world.store.isLive lease = true →
        e.isLeader = true

/-- An elector that goes on with its election. -/
def Elector.runs (e : Elector) : Bool := !e.stopping && e.pc ≠ .ended

/-- A put that arrives late would create the key. -/
def creates (s : LeaseStore) : Request → Option ℕ
  | .putIfAbsent _ lease => if s.leader = none ∧ s.isLive lease = true then some lease else none
  | _ => none

/-- A put whose attempt was given up does not create the key under a lease of an
elector that runs, and no term ends at a keepalive while its lease is live. -/
def keepsFlag (l : Ledger) : Act → Bool
  | .land k =>
      (l.world.strays[k]?.bind (creates l.world.store)).all fun lease =>
        (List.range l.world.electors.length).all fun i =>
          !(l.owned i).contains lease || (l.world.electors[i]?).all fun e => !e.runs
  | .attempt i a _ =>
      (l.world.electors[i]?).all fun e =>
        e.pc ≠ .keepingAlive || e.stopping || e.leaseId.all fun lease =>
          !l.world.store.isLive lease ||
            (!a.givesUp e.tries && (a ≠ .answered || (l.world.store.leases.get lease).any (0 < ·)))
  | _ => true

/-! ## What the key is bound to -/

/-- A request leaves the key to a lease that had it, or is a put that creates it. -/
theorem leader_serve {s : LeaseStore} {r : Request} {v : String} {lease : ℕ}
    (h : (s.serve r).1.leader = some (v, lease)) :
    s.leader = some (v, lease) ∨ r = .putIfAbsent v lease ∧ creates s r = some lease ∧
      (s.serve r).2 = .ok (.succeeded true) := by
  cases r with
  | leaseGrant ttl => exact .inl h
  | leaseKeepalive l => exact .inl h
  | get => exact .inl h
  | leaseRevoke l =>
      simp only [LeaseStore.serve] at h
      split_ifs at h
      · exact .inl (leader_drop.mp h).1
      · exact .inl h
  | putIfAbsent value l =>
      cases hleader : s.leader with
      | some x =>
          simp only [LeaseStore.serve, hleader] at h
          exact .inl h
      | none =>
          simp only [LeaseStore.serve, hleader] at h ⊢
          split_ifs at h ⊢ with hlive
          · cases h
            exact .inr ⟨rfl, by simp [creates, hleader, hlive], rfl⟩
          · rw [hleader] at h
            cases h

theorem leader_after {s : LeaseStore} {r : Request} {a : Attempt} {v : String} {lease : ℕ}
    (h : (s.after r a).leader = some (v, lease)) :
    s.leader = some (v, lease) ∨ r = .putIfAbsent v lease ∧ a = .answered ∧
      (s.serve r).2 = .ok (.succeeded true) := by
  unfold LeaseStore.after EtcdClient.after at h
  split_ifs at h with ha
  · exact (leader_serve h).imp_right fun hput => ⟨hput.1, ha, hput.2.2⟩
  · exact .inl h

/-! ## The invariant -/

/-- An elector that runs, with the leases it was granted: its own lease is one of
them, and a key under one of them is that of its term. -/
structure Follows (s : LeaseStore) (owned : List ℕ) (e : Elector) : Prop where
  current : ∀ lease, e.leaseId = some lease → lease ∈ owned
  flagged : e.pc = .holding ∨ e.pc = .keepingAlive → e.isLeader = true
  held : e.runs = true → ∀ v lease, lease ∈ owned → s.leader = some (v, lease) →
    e.leaseId = some lease ∧ e.pc.inTerm = true

namespace Follows

variable {s t : LeaseStore} {owned : List ℕ} {e : Elector}

/-- The key goes on under a lease that had it. -/
theorem evolves (h : Follows s owned e)
    (hkey : ∀ v lease, lease ∈ owned → t.leader = some (v, lease) → e.runs = true →
      s.leader = some (v, lease)) : Follows t owned e :=
  ⟨h.current, h.flagged, fun hruns v lease hl hv => h.held hruns v lease hl (hkey v lease hl hv hruns)⟩

/-- A point outside a term: the key is under no lease of the elector. -/
theorem outside (h : Follows s owned e) (hruns : e.runs = true) (hterm : e.pc.inTerm = false)
    {v : String} {lease : ℕ} (hl : lease ∈ owned) : s.leader ≠ some (v, lease) := by
  intro hv
  have hin := (h.held hruns v lease hl hv).2
  rw [hterm] at hin
  cases hin

/-- The elector goes to a point at which it holds no term. -/
theorem goto (h : Follows s owned e) (hterm : e.pc.inTerm = false) {pc : Pc}
    (hpc : pc ≠ .holding ∧ pc ≠ .keepingAlive) (hended : e.pc ≠ .ended) (flag : Bool) :
    Follows s owned ({ e with isLeader := flag }.goto pc) := by
  refine ⟨h.current, fun hhold => absurd hhold (by simp [Elector.goto, hpc]), ?_⟩
  intro hruns v lease hl hv
  have hold : e.runs = true := by
    simp only [Elector.runs, Elector.goto, Bool.and_eq_true, Bool.not_eq_true'] at hruns
    simp [Elector.runs, hruns.1, hended]
  exact absurd hv (h.outside hold hterm hl)

theorem notify (h : Follows s owned e) (evs : List Event) : Follows s owned (e.notify evs) := by
  by_cases hwait : ∃ watch, e.pc = .awaiting watch
  · obtain ⟨watch, hpc⟩ := hwait
    have hnew : ∃ watch', (e.notify evs).pc = .awaiting watch' := by
      cases watch <;> simp [Elector.notify, hpc, Pc.notify]
    obtain ⟨watch', hpc'⟩ := hnew
    refine ⟨h.current, fun hhold => absurd hhold (by simp [hpc']), ?_⟩
    intro hruns v lease hl hv
    have hold : e.runs = true := by
      simp only [Elector.runs, Elector.notify, Bool.and_eq_true, Bool.not_eq_true'] at hruns
      simp [Elector.runs, hruns.1, hpc]
    exact absurd hv (h.outside hold (by rw [hpc]; rfl) hl)
  · have hsame : e.notify evs = e := by
      rw [Elector.notify, Pc.notify_of_ne fun watch hpc => hwait ⟨watch, hpc⟩]
    rwa [hsame]

theorem revoke (h : Follows s owned e) (cooldown : Option ℕ) :
    Follows s owned (e.revoke cooldown) := by
  unfold Elector.revoke
  split
  · exact ⟨h.current, h.flagged, h.held⟩
  · exact h

/-- The elector stays in its term. -/
theorem inTerm (h : Follows s owned e) (hended : e.pc ≠ .ended)
    {flag : Bool} (hflag : flag = true) (since : Option ℕ) {pc : Pc} (hpc : pc.inTerm = true) :
    Follows s owned ({ e with isLeader := flag, termStartedAt := since }.goto pc) := by
  refine ⟨h.current, fun _ => hflag, fun hruns v lease hl hv => ⟨?_, hpc⟩⟩
  have hold : e.runs = true := by
    simp only [Elector.runs, Elector.goto, Bool.and_eq_true, Bool.not_eq_true'] at hruns
    simp [Elector.runs, hruns.1, hended]
  exact (h.held hold v lease hl hv).1

/-- The term is released by an elector that is stopping or whose key is gone. -/
theorem release (h : Follows s owned e) {pc : Pc} (hpc : pc ≠ .holding ∧ pc ≠ .keepingAlive)
    (hgone : e.stopping = true ∨ pc = .ended ∨
      ∀ v lease, lease ∈ owned → s.leader ≠ some (v, lease)) :
    Follows s owned (e.release pc) := by
  refine ⟨h.current, fun hhold => absurd hhold (by simp [Elector.release, hpc]), ?_⟩
  intro hruns v lease hl hv
  simp only [Elector.runs, Elector.release, Bool.and_eq_true, Bool.not_eq_true'] at hruns
  rcases hgone with hstop | hended | hnone
  · rw [hstop] at hruns
    cases hruns.1
  · exact absurd hended (of_decide_eq_true hruns.2)
  · exact absurd hv (hnone v lease hl)

theorem proceed (h : Follows s owned e) {now : ℕ} {e' : Elector} (hp : e.proceed now = some e') :
    Follows s owned e' := by
  cases hpc : e.pc with
  | top =>
      simp only [Elector.proceed, hpc] at hp
      have hterm : e.pc.inTerm = false := by rw [hpc]; rfl
      split_ifs at hp <;> cases hp
      · exact h.goto hterm (by simp) (by simp [hpc]) e.isLeader
      · exact h.goto hterm (by simp) (by simp [hpc]) false
      · exact h.goto hterm (by simp) (by simp [hpc]) e.isLeader
  | decided won =>
      cases won with
      | true =>
          simp only [Elector.proceed, hpc, Option.some.injEq] at hp
          subst hp
          exact h.inTerm (by simp [hpc]) rfl (some now) rfl
      | false =>
          simp only [Elector.proceed, hpc, Option.some.injEq] at hp
          subst hp
          exact h.goto (by rw [hpc]; rfl) (by simp) (by simp [hpc]) false
  | holding =>
      simp only [Elector.proceed, hpc, Option.some.injEq] at hp
      subst hp
      split_ifs with hstop
      · exact h.release (by simp) (.inl hstop)
      · exact h.inTerm (by simp [hpc]) (h.flagged (.inl hpc)) e.termStartedAt rfl
  | backingOff =>
      simp only [Elector.proceed, hpc, Option.some.injEq] at hp
      subst hp
      exact h.goto (by rw [hpc]; rfl) (by simp) (by simp [hpc]) e.isLeader
  | granting => simp [Elector.proceed, hpc] at hp
  | claiming value lease => simp [Elector.proceed, hpc] at hp
  | keepingAlive => simp [Elector.proceed, hpc] at hp
  | reading => simp [Elector.proceed, hpc] at hp
  | awaiting watch => simp [Elector.proceed, hpc] at hp
  | ended => simp [Elector.proceed, hpc] at hp

/-- A daemon takes a step by itself, and its process goes on. -/
theorem act (h : Follows s owned e) {l : LocalAct} {e' : Elector} (ha : e.act l = some e')
    (hcrash : l ≠ .crash) (hrestart : l ≠ .restart) : Follows s owned e' := by
  cases l with
  | proceed now => exact h.proceed ha
  | openWatch =>
      simp only [Elector.act] at ha
      split at ha <;> cases ha
      next hpc => exact h.goto (by rw [hpc]; rfl) (by simp) (by simp [hpc]) e.isLeader
  | deliver =>
      simp only [Elector.act] at ha
      split at ha <;> cases ha
      · next hpc => exact h.goto (by rw [hpc]; rfl) (by simp) (by simp [hpc]) e.isLeader
      · next hpc => exact h.goto (by rw [hpc]; rfl) (by simp) (by simp [hpc]) e.isLeader
  | breakWatch =>
      simp only [Elector.act] at ha
      split at ha <;> cases ha
      next hpc => exact h.goto (by rw [hpc]; rfl) (by simp) (by simp [hpc]) e.isLeader
  | stepDown cooldown =>
      simp only [Elector.act, Option.some.injEq] at ha
      subst ha
      split_ifs
      · exact h.revoke _
      · exact h
  | stop =>
      cases ha
      have hstop : Follows s owned { e with stopping := true } :=
        ⟨h.current, h.flagged, fun hruns => by cases hruns⟩
      exact hstop.revoke none
  | cancel =>
      cases ha
      unfold Elector.cancelled
      split
      · exact h.release (by simp) (.inr (.inl rfl))
      · exact h.release (by simp) (.inr (.inl rfl))
      · exact ⟨h.current, fun hhold => absurd hhold (by simp [Elector.goto]),
          fun hruns => absurd hruns (by simp [Elector.runs, Elector.goto])⟩
  | crash => exact absurd rfl hcrash
  | restart => exact absurd rfl hrestart

/-- A process without leases. -/
theorem fresh (s : LeaseStore) (cfg : ElectorConfig) {pc : Pc}
    (hpc : pc ≠ .holding ∧ pc ≠ .keepingAlive) : Follows s [] ((Elector.create cfg).goto pc) :=
  ⟨fun _ hl => (by cases hl),
    fun hhold => absurd hhold (by simp [Elector.goto, hpc]),
    fun _ _ _ hl => absurd hl List.not_mem_nil⟩

section Answered

variable {r : Request} {a : Attempt} {now : ℕ} {res : Except Exc Reply}

/-- The grant of a lease is answered, and the elector goes on to its claim. -/
theorem granted (h : Follows s owned e) (hsound : Sound s) (hr : e.request = some r)
    (hres : ∀ y, res = .ok y ↔ a = .answered ∧ (s.serve r).2 = .ok y) (hpc : e.pc = .granting) :
    Follows (s.after r a) (if a = .answered then s.nextLease :: owned else owned) (e.answered now res) := by
  simp only [Elector.request, hpc, Option.some.injEq] at hr
  subst hr
  have houtside : ∀ {v lease}, e.runs = true → lease ∈ owned → s.leader ≠ some (v, lease) :=
    fun hruns hl => h.outside hruns (by rw [hpc]; rfl) hl
  by_cases ha : a = .answered
  · subst ha
    obtain rfl : res = .ok (.granted s.nextLease) := (hres _).mpr ⟨rfl, rfl⟩
    have hanswered : e.answered now (.ok (.granted s.nextLease)) =
        { e with leaseId := some s.nextLease }.goto
          (.claiming (leaderValue e.cfg now s.nextLease) s.nextLease) := by
      simp only [Elector.answered, hpc]
    rw [hanswered, if_pos rfl]
    refine ⟨?_, fun hhold => by simp [Elector.goto] at hhold, fun hruns v lease hl hv => ?_⟩
    · rintro lease ⟨⟩
      exact List.mem_cons_self
    · have hruns' : e.runs = true := by
        simp only [Elector.runs, Elector.goto, Bool.and_eq_true, Bool.not_eq_true'] at hruns
        simp [Elector.runs, hruns.1, hpc]
      have hold : s.leader = some (v, lease) := hv
      rcases List.mem_cons.mp hl with rfl | hl
      · exact absurd (hsound.numbered _ (hsound.bound v _ hold)) (Nat.lt_irrefl _)
      · exact absurd hold (houtside hruns' hl)
  · have hanswered : e.answered now res = e.goto .backingOff := by
      cases res with
      | ok y => exact absurd ((hres y).mp rfl).1 ha
      | error x => simp only [Elector.answered, hpc]
    rw [hanswered, if_neg ha, LeaseStore.after, EtcdClient.after, if_neg ha]
    exact h.goto (by rw [hpc]; rfl) (by simp) (by simp [hpc]) e.isLeader

/-- The claim ends: the elector has the key only when it is told so. -/
theorem claimed (h : Follows s owned e) (htracks : Tracks s e) (hr : e.request = some r)
    (hres : ∀ y, res = .ok y ↔ a = .answered ∧ (s.serve r).2 = .ok y) {value : String} {lease : ℕ}
    (hpc : e.pc = .claiming value lease) : Follows (s.after r a) owned (e.answered now res) := by
  simp only [Elector.request, hpc, Option.some.injEq] at hr
  subst hr
  have hlease := (htracks.claims value lease hpc).1
  have houtside : ∀ {v l}, e.runs = true → l ∈ owned → s.leader ≠ some (v, l) :=
    fun hruns hl => h.outside hruns (by rw [hpc]; rfl) hl
  have hruns_of : ∀ pc, (e.goto pc).runs = true → e.runs = true := by
    intro pc hruns
    simp only [Elector.runs, Elector.goto, Bool.and_eq_true, Bool.not_eq_true'] at hruns
    simp [Elector.runs, hruns.1, hpc]
  by_cases hwon : res = .ok (.succeeded true)
  · have hanswered : e.answered now res = e.goto (.decided true) := by
      rw [hwon]
      simp only [Elector.answered, hpc]
    rw [hanswered]
    refine ⟨h.current, fun hhold => by simp [Elector.goto] at hhold, fun hruns v l hl hv => ?_⟩
    rcases leader_after hv with hold | ⟨hput, -⟩
    · exact absurd hold (houtside (hruns_of _ hruns) hl)
    · cases hput
      exact ⟨hlease, rfl⟩
  · have hgoto : ∃ pc, e.answered now res = e.goto pc ∧ pc ≠ .holding ∧ pc ≠ .keepingAlive := by
      cases res with
      | error x => exact ⟨.backingOff, by simp only [Elector.answered, hpc], by simp⟩
      | ok y =>
          cases y with
          | succeeded b => exact ⟨.decided b, by simp only [Elector.answered, hpc], by simp⟩
          | _ => exact ⟨.backingOff, by simp only [Elector.answered, hpc], by simp⟩
    obtain ⟨pc, hanswered, hhold, hkeep⟩ := hgoto
    rw [hanswered]
    refine ⟨h.current, fun hpc' => ?_, fun hruns v l hl hv => ?_⟩
    · exact (hpc'.elim hhold hkeep).elim
    · rcases leader_after hv with hold | ⟨hput, ha, hserve⟩
      · exact absurd hold (houtside (hruns_of _ hruns) hl)
      · exact absurd ((hres _).mpr ⟨ha, hserve⟩) hwon

/-- A keepalive leaves the key alone, and ends a term only when its lease is gone. -/
theorem keptAlive (h : Follows s owned e) (hsound : Sound s) (hr : e.request = some r)
    (hkept : e.stopping = true ∨ (∀ lease, e.leaseId = some lease → s.isLive lease = false) ∨
      ∃ t, 0 < t ∧ res = .ok (.ttl (some t)))
    (hpc : e.pc = .keepingAlive) : Follows (s.after r a) owned (e.answered now res) := by
  have hsame : s.after r a = s := by
    cases hl : e.leaseId with
    | none => simp [Elector.request, hpc, hl] at hr
    | some lease =>
        simp only [Elector.request, hpc, hl, Option.map_some, Option.some.injEq] at hr
        subst hr
        unfold LeaseStore.after EtcdClient.after
        split_ifs <;> rfl
  rw [hsame]
  have hgone : e.stopping = true ∨ (∀ lease, e.leaseId = some lease → s.isLive lease = false) →
      Follows s owned (e.answered now res) := by
    intro hcases
    have hrelease : Follows s owned (e.release .top) := by
      by_cases hstop : e.stopping = true
      · exact h.release (by simp) (.inl hstop)
      · refine h.release (by simp) (.inr (.inr fun v lease hl hv => ?_))
        have hruns : e.runs = true := by simp [Elector.runs, hpc, hstop]
        have hdead := hcases.resolve_left hstop lease (h.held hruns v lease hl hv).1
        rw [hsound.bound v lease hv] at hdead
        cases hdead
    have hhold : Follows s owned (e.goto .holding) :=
      h.inTerm (by simp [hpc]) (h.flagged (.inr hpc)) e.termStartedAt rfl
    have hanswers := Elector.answers hr now res
    generalize e.answered now res = e' at hanswers
    rw [hpc] at hanswers
    cases hanswers with
    | kept => exact hhold
    | lost => exact hrelease
    | failed hh hk => exact absurd rfl hk
  rcases hkept with hstop | hdead | ⟨t, ht, rfl⟩
  · exact hgone (.inl hstop)
  · exact hgone (.inr hdead)
  · have hanswered : e.answered now (.ok (.ttl (some t))) = e.goto .holding := by
      simp only [Elector.answered, hpc, if_neg (not_le.mpr ht)]
    rw [hanswered]
    exact h.inTerm (by simp [hpc]) (h.flagged (.inr hpc)) e.termStartedAt rfl

/-- A read of the key changes nothing. -/
theorem readKey (h : Follows s owned e) (hr : e.request = some r) (hpc : e.pc = .reading) :
    Follows (s.after r a) owned (e.answered now res) := by
  have hanswers := Elector.answers hr now res
  simp only [Elector.request, hpc, Option.some.injEq] at hr
  subst hr
  have hsame : s.after .get a = s := by
    unfold LeaseStore.after EtcdClient.after
    split_ifs <;> rfl
  rw [hsame]
  have hgoto : ∃ pc, e.answered now res = e.goto pc ∧ pc ≠ .holding ∧ pc ≠ .keepingAlive := by
    generalize e.answered now res = e' at hanswers
    rw [hpc] at hanswers
    cases hanswers with
    | read hlog => exact ⟨_, rfl, by simp⟩
    | failed hh hk => exact ⟨_, rfl, by simp⟩
  obtain ⟨pc, hanswered, hne⟩ := hgoto
  rw [hanswered]
  exact h.goto (by rw [hpc]; rfl) hne (by simp [hpc]) e.isLeader

/-- The call of the run loop ends. -/
theorem answered (h : Follows s owned e) (hsound : Sound s) (htracks : Tracks s e) (hr : e.request = some r)
    (hres : ∀ y, res = .ok y ↔ a = .answered ∧ (s.serve r).2 = .ok y)
    (hkept : e.pc = .keepingAlive → e.stopping = true ∨
      (∀ lease, e.leaseId = some lease → s.isLive lease = false) ∨
      ∃ t, 0 < t ∧ res = .ok (.ttl (some t))) :
    Follows (s.after r a)
      (if e.pc = .granting ∧ a = .answered then s.nextLease :: owned else owned)
      (e.answered now res) := by
  cases hpc : e.pc with
  | granting =>
      simp only [true_and]
      exact h.granted hsound hr hres hpc
  | claiming value lease =>
      rw [if_neg (fun hboth => by cases hboth.1)]
      exact h.claimed htracks hr hres hpc
  | keepingAlive =>
      rw [if_neg (fun hboth => by cases hboth.1)]
      exact h.keptAlive hsound hr (hkept hpc) hpc
  | reading =>
      rw [if_neg (fun hboth => by cases hboth.1)]
      exact h.readKey hr hpc
  | top => simp [Elector.request, hpc] at hr
  | decided won => simp [Elector.request, hpc] at hr
  | holding => simp [Elector.request, hpc] at hr
  | awaiting watch => simp [Elector.request, hpc] at hr
  | backingOff => simp [Elector.request, hpc] at hr
  | ended => simp [Elector.request, hpc] at hr

end Answered

end Follows

/-! ## The steps of the system -/

structure Followed (l : Ledger) : Prop where
  consistent : Consistent l.world
  numbered : ∀ i lease, lease ∈ l.owned i → lease < l.world.store.nextLease
  apart : ∀ i j lease, lease ∈ l.owned i → lease ∈ l.owned j → i = j
  follows : ∀ (i : ℕ) (e : Elector), l.world.electors[i]? = some e →
    Follows l.world.store (l.owned i) e

theorem followed_start {w : World} (h : Initial w) : Followed (.start w) := by
  refine ⟨consistent_initial h, fun _ _ hl => absurd hl List.not_mem_nil,
    fun _ _ _ hl => absurd hl List.not_mem_nil, fun i e he => ?_⟩
  rw [h.created e (List.mem_of_getElem? he)]
  exact @Follows.fresh w.store e.cfg .top (by simp)

theorem getElem?_put {w : World} {i j : ℕ} {e b : Elector}
    (hb : (w.put i e).electors[j]? = some b) :
    j = i ∧ b = e ∨ j ≠ i ∧ w.electors[j]? = some b := by
  simp only [World.put, List.getElem?_set] at hb
  split_ifs at hb with hij hlt
  · exact .inl ⟨hij.symm, (Option.some.inj hb).symm⟩
  · exact .inr ⟨Ne.symm hij, hb⟩

theorem getElem?_commit {w : World} {s : LeaseStore} {j : ℕ} {b : Elector}
    (hb : (w.commit s).electors[j]? = some b) :
    ∃ e, w.electors[j]? = some e ∧ b = e.notify (changes w.store.leader s.leader) := by
  simp only [World.commit, List.getElem?_map, Option.map_eq_some_iff] at hb
  obtain ⟨e, he, hb⟩ := hb
  exact ⟨e, he, hb.symm⟩

/-- An attempt in the run loop: the call goes on, or it ends. -/
theorem attempt_cases {w v : World} {i now : ℕ} {a : Attempt} {e : Elector} {r : Request}
    (h : step w (.attempt i a now) = some v) (he : w.electors[i]? = some e)
    (hr : e.request = some r) :
    ∃ strays, (v = ({ w.commit (w.store.after r a) with strays := strays }.put i
          { e with tries := e.tries + 1 }) ∧
        ∀ y, (w.store.serve r).2 = .ok y → a ≠ .answered) ∨
      ∃ res, v = ({ w.commit (w.store.after r a) with strays := strays }.put i
          (e.answered now res)) ∧
        (∀ y, res = .ok y ↔ a = .answered ∧ (w.store.serve r).2 = .ok y) ∧
        (a = .answered ∨ a.givesUp e.tries = true) := by
  simp only [step, he, hr, Option.bind_eq_bind, Option.bind_some] at h
  cases hsend : w.send r e.tries a with
  | mk u out =>
      obtain ⟨strays, rfl, hout⟩ := World.send_cases hsend
      rw [hsend] at h
      refine ⟨strays, ?_⟩
      cases out with
      | none =>
          cases h
          exact .inl ⟨rfl, fun y hy ha => by cases (hout y).mpr ⟨ha, hy⟩⟩
      | some res =>
          cases h
          refine .inr ⟨res, rfl, fun y => by rw [← hout y, Option.some.injEq], ?_⟩
          have hreturns : (attemptLate LeaseStore.serve e.tries w.store w.strays r a).2 = some res :=
            congrArg Prod.snd hsend
          exact attemptLate_returns hreturns

/-- The key of another elector is untouched by a put of this one. -/
theorem Followed.other {l : Ledger} (h : Followed l) {i j : ℕ} {e b : Elector} {r : Request}
    {a : Attempt} (he : l.world.electors[i]? = some e) (hr : e.request = some r)
    (hb : l.world.electors[j]? = some b) (hij : j ≠ i) :
    Follows (l.world.store.after r a) (l.owned j)
      (b.notify (changes l.world.store.leader (l.world.store.after r a).leader)) := by
  refine ((h.follows j b hb).evolves fun v lease hl hv _ => ?_).notify _
  refine (leader_after hv).resolve_right ?_
  rintro ⟨rfl, -, -⟩
  have hclaim : e.pc = .claiming v lease := by
    cases hpc : e.pc with
    | claiming value lease' =>
        simp only [Elector.request, hpc, Option.some.injEq] at hr
        cases hr
        rfl
    | keepingAlive =>
        simp only [Elector.request, hpc, Option.map_eq_some_iff] at hr
        obtain ⟨_, -, hr⟩ := hr
        cases hr
    | _ => simp [Elector.request, hpc] at hr
  have hown := (h.follows i e he).current lease ((h.consistent.tracks i e he).claims v lease hclaim).1
  exact hij (h.apart j i lease hl hown)

theorem after_nextLease (s : LeaseStore) (hs : Sound s) (r : Request) (a : Attempt) :
    s.nextLease ≤ (s.after r a).nextLease :=
  (after_evolves hs r a).next

section Grant

variable {owned : ℕ → List ℕ} {n i : ℕ}

/-- The elector is granted the next lease. -/
theorem numbered_grant (h : ∀ j lease, lease ∈ owned j → lease < n) :
    ∀ j lease, lease ∈ Function.update owned i (n :: owned i) j → lease < n + 1 := by
  intro j lease hl
  by_cases hji : j = i
  · subst hji
    rw [Function.update_self] at hl
    rcases List.mem_cons.mp hl with rfl | hl
    · exact Nat.lt_succ_self _
    · exact (h j lease hl).trans (Nat.lt_succ_self _)
  · rw [Function.update_of_ne hji] at hl
    exact (h j lease hl).trans (Nat.lt_succ_self _)

theorem apart_grant (hnumbered : ∀ j lease, lease ∈ owned j → lease < n)
    (h : ∀ j k lease, lease ∈ owned j → lease ∈ owned k → j = k) :
    ∀ j k lease, lease ∈ Function.update owned i (n :: owned i) j →
      lease ∈ Function.update owned i (n :: owned i) k → j = k := by
  have hfresh : ∀ m lease, lease ∈ owned m → lease ≠ n :=
    fun m lease hm heq => absurd (hnumbered m lease hm) (by omega)
  intro j k lease hj hk
  by_cases hji : j = i
  · by_cases hki : k = i
    · rw [hji, hki]
    · subst hji
      rw [Function.update_self] at hj
      rw [Function.update_of_ne hki] at hk
      exact h j k lease ((List.mem_cons.mp hj).resolve_left (hfresh k lease hk)) hk
  · rw [Function.update_of_ne hji] at hj
    by_cases hki : k = i
    · subst hki
      rw [Function.update_self] at hk
      exact h j k lease hj ((List.mem_cons.mp hk).resolve_left (hfresh j lease hj))
    · rw [Function.update_of_ne hki] at hk
      exact h j k lease hj hk

end Grant

/-- The leases after an attempt. -/
theorem owned_attempt {l : Ledger} {i now : ℕ} {a : Attempt} {e : Elector}
    (he : l.world.electors[i]? = some e) :
    ownedAfter l.world l.owned (.attempt i a now) =
      if e.pc = .granting ∧ a = .answered then
        Function.update l.owned i (l.world.store.nextLease :: l.owned i)
      else l.owned := by
  cases a with
  | answered => simp [ownedAfter, he]
  | _ => simp [ownedAfter]

theorem followed_attempt {l : Ledger} {i now : ℕ} {a : Attempt} {v : World} {e : Elector}
    {r : Request} (h : Followed l) (hkeeps : keepsFlag l (.attempt i a now) = true)
    (he : l.world.electors[i]? = some e) (hr : e.request = some r)
    (hs : step l.world (.attempt i a now) = some v) :
    Followed ⟨v, ownedAfter l.world l.owned (.attempt i a now)⟩ := by
  have hsound := h.consistent.sound
  have hconsistent := consistent_step h.consistent hs
  rw [owned_attempt he]
  have hnext := after_nextLease l.world.store hsound r a
  have hself := h.follows i e he
  obtain ⟨strays, ⟨rfl, hagain⟩ | ⟨res, rfl, hres, hends⟩⟩ := attempt_cases hs he hr
  · have hnot : ¬(e.pc = .granting ∧ a = .answered) := by
      rintro ⟨hpc, ha⟩
      simp only [Elector.request, hpc, Option.some.injEq] at hr
      subst hr
      exact hagain _ rfl ha
    rw [if_neg hnot]
    refine ⟨hconsistent, fun j lease hl => (h.numbered j lease hl).trans_le hnext, h.apart,
      fun j b hb => ?_⟩
    rcases getElem?_put hb with ⟨rfl, rfl⟩ | ⟨hij, hb⟩
    · have hkept := hself.evolves (t := l.world.store.after r a) fun v lease hl hv _ =>
        (leader_after hv).resolve_right fun hput => hagain _ hput.2.2 hput.2.1
      exact ⟨hkept.current, hkept.flagged, hkept.held⟩
    · obtain ⟨b, hold, rfl⟩ := getElem?_commit hb
      exact h.other he hr hold hij
  · have hself' : Follows (l.world.store.after r a)
        (if e.pc = .granting ∧ a = .answered then l.world.store.nextLease :: l.owned i
          else l.owned i) (e.answered now res) := by
      refine hself.answered hsound (h.consistent.tracks i e he) hr hres fun hpc => ?_
      simp only [keepsFlag, he, Option.all_some, Bool.or_eq_true, decide_eq_true_eq, hpc, ne_eq,
        not_true_eq_false, false_or] at hkeeps
      refine hkeeps.imp_right fun hlease => ?_
      cases hl : e.leaseId with
      | none => exact .inl fun lease hnone => by cases hnone
      | some lease =>
          simp only [hl, Option.all_some, Bool.or_eq_true, Bool.not_eq_true', Bool.and_eq_true,
            decide_eq_true_eq] at hlease
          rcases hlease with hdead | ⟨hgives, hanswer⟩
          · refine .inl fun lease' hsame => ?_
            cases hsame
            exact hdead
          · have ha : a = .answered := hends.resolve_right (by rw [hgives]; exact Bool.false_ne_true)
            rcases hanswer with hne | hpos
            · exact absurd ha hne
            · obtain ⟨t, ht, hpos⟩ := (Option.any_eq_true _ _).mp hpos
              simp only [Elector.request, hpc, hl, Option.map_some, Option.some.injEq] at hr
              subst hr
              refine .inr ⟨t, of_decide_eq_true hpos, (hres _).mpr ⟨ha, ?_⟩⟩
              simp only [LeaseStore.serve, ht]
    by_cases hgrant : e.pc = .granting ∧ a = .answered
    · rw [if_pos hgrant] at hself' ⊢
      obtain ⟨hpc, rfl⟩ := hgrant
      have hcall := hr
      simp only [Elector.request, hpc, Option.some.injEq] at hr
      subst hr
      refine ⟨hconsistent, numbered_grant h.numbered, apart_grant h.numbered h.apart, fun j b hb => ?_⟩
      rcases getElem?_put hb with ⟨rfl, rfl⟩ | ⟨hij, hb⟩
      · dsimp only
        rw [Function.update_self]
        exact hself'
      · obtain ⟨b, hold, rfl⟩ := getElem?_commit hb
        dsimp only
        rw [Function.update_of_ne hij]
        exact h.other (a := .answered) he hcall hold hij
    · rw [if_neg hgrant] at hself' ⊢
      refine ⟨hconsistent, fun j lease hl => (h.numbered j lease hl).trans_le hnext, h.apart,
        fun j b hb => ?_⟩
      rcases getElem?_put hb with ⟨rfl, rfl⟩ | ⟨hij, hb⟩
      · exact hself'
      · obtain ⟨b, hold, rfl⟩ := getElem?_commit hb
        exact h.other he hr hold hij

/-- A daemon's own step. -/
theorem followed_daemon {l : Ledger} {i : ℕ} {act : LocalAct} {e e' : Elector} (h : Followed l)
    (he : l.world.electors[i]? = some e) (hact : e.act act = some e')
    (hs : step l.world (.daemon i act) = some (l.world.put i e')) :
    Followed ⟨l.world.put i e', ownedAfter l.world l.owned (.daemon i act)⟩ := by
  have hconsistent := consistent_step h.consistent hs
  have hgone : act = .crash ∨ act = .restart → Follows l.world.store [] e' := by
    rintro (rfl | rfl)
    · cases hact
      exact Follows.fresh _ e.cfg (by simp)
    · simp only [Elector.act] at hact
      split_ifs at hact
      cases hact
      exact @Follows.fresh _ e.cfg .top (by simp)
  by_cases hends : act = .crash ∨ act = .restart
  · have howned : ownedAfter l.world l.owned (.daemon i act) = Function.update l.owned i [] := by
      rcases hends with rfl | rfl <;> rfl
    have hsub : ∀ j lease, lease ∈ Function.update l.owned i [] j → j ≠ i ∧ lease ∈ l.owned j := by
      intro j lease hl
      by_cases hji : j = i
      · subst hji
        rw [Function.update_self] at hl
        exact absurd hl List.not_mem_nil
      · rw [Function.update_of_ne hji] at hl
        exact ⟨hji, hl⟩
    rw [howned]
    refine ⟨hconsistent, fun j lease hl => h.numbered j lease (hsub j lease hl).2,
      fun j k lease hj hk => h.apart j k lease (hsub j lease hj).2 (hsub k lease hk).2,
      fun j b hb => ?_⟩
    rcases getElem?_put hb with ⟨rfl, rfl⟩ | ⟨hij, hb⟩
    · dsimp only
      rw [Function.update_self]
      exact hgone hends
    · dsimp only
      rw [Function.update_of_ne hij]
      exact h.follows j b hb
  · have howned : ownedAfter l.world l.owned (.daemon i act) = l.owned := by
      cases act <;> first | rfl | exact absurd (by simp) hends
    rw [howned]
    refine ⟨hconsistent, h.numbered, h.apart, fun j b hb => ?_⟩
    rcases getElem?_put hb with ⟨rfl, rfl⟩ | ⟨hij, hb⟩
    · exact (h.follows j e he).act hact (fun hc => hends (.inl hc)) fun hr => hends (.inr hr)
    · exact h.follows j b hb

/-- The store changes by itself, and no key appears under a lease of an elector
that runs. -/
theorem followed_commit {l : Ledger} {s : LeaseStore} {strays : List Request} (h : Followed l)
    (hs : Evolves l.world.store s)
    (hconsistent : Consistent { l.world.commit s with strays := strays })
    (hkey : ∀ (i : ℕ) (e : Elector), l.world.electors[i]? = some e → e.runs = true →
      ∀ v lease, lease ∈ l.owned i → s.leader = some (v, lease) →
        l.world.store.leader = some (v, lease)) :
    Followed ⟨{ l.world.commit s with strays := strays }, l.owned⟩ := by
  refine ⟨hconsistent, fun j lease hl => (h.numbered j lease hl).trans_le hs.next, h.apart,
    fun j b hb => ?_⟩
  obtain ⟨e, he, rfl⟩ := getElem?_commit hb
  exact ((h.follows j e he).evolves fun v lease hl hv hruns =>
    hkey j e he hruns v lease hl hv).notify _

theorem followed_step {l m : Ledger} {act : Act} (h : Followed l) (hkeeps : keepsFlag l act = true)
    (hs : l.step act = some m) : Followed m := by
  obtain ⟨v, hv, rfl⟩ := Option.map_eq_some_iff.mp hs
  have hsound := h.consistent.sound
  have hconsistent := consistent_step h.consistent hv
  cases hsteps : steps_of_step hv with
  | daemon he hact => exact followed_daemon h he hact hv
  | again he hr _ => exact followed_attempt h hkeeps he hr hv
  | returns he hr _ => exact followed_attempt h hkeeps he hr hv
  | @revoke i k a now e r s strays revocations skipRaceUntil he hr hstore =>
      subst hstore
      have hev := after_evolves hsound (.leaseRevoke r.lease) a
      have hkey : ∀ (u : String) (lease : ℕ),
          (l.world.store.after (.leaseRevoke r.lease) a).leader = some (u, lease) →
            l.world.store.leader = some (u, lease) := by
        intro u lease hlead
        exact (leader_after hlead).resolve_right fun hput => by cases hput.1
      refine ⟨hconsistent, fun j lease hl => (h.numbered j lease hl).trans_le hev.next, h.apart,
        fun j b hb => ?_⟩
      rcases getElem?_put hb with ⟨rfl, rfl⟩ | ⟨hij, hb⟩
      · have hkept := ((h.follows j e he).evolves fun u lease _ hlead _ => hkey u lease hlead).notify
          (changes l.world.store.leader (l.world.store.after (.leaseRevoke r.lease) a).leader)
        exact ⟨hkept.current, hkept.flagged, hkept.held⟩
      · obtain ⟨b, hold, rfl⟩ := getElem?_commit hb
        exact ((h.follows j b hold).evolves fun u lease _ hlead _ => hkey u lease hlead).notify _
  | @land k r strays hr =>
      refine followed_commit h (serve_evolves hsound r) hconsistent
        fun i e he hruns u lease hl hlead => ?_
      refine (leader_serve hlead).resolve_right ?_
      rintro ⟨-, hcreates, -⟩
      simp only [keepsFlag, hr, Option.bind_some, hcreates, Option.all_some, List.all_eq_true,
        List.mem_range] at hkeeps
      obtain ⟨hlt, -⟩ := List.getElem?_eq_some_iff.mp he
      have hown := hkeeps i hlt
      simp only [List.contains_iff_mem.mpr hl, he, Option.all_some, hruns, Bool.not_true,
        Bool.or_self, Bool.false_eq_true] at hown
  | @expire lease hlive =>
      exact followed_commit h (drop_evolves hsound lease) hconsistent
        fun i e he hruns u lease' hl hlead => (leader_drop.mp hlead).1

/-- An elector whose key is under a lease of its own has its flag. -/
theorem Followed.flag {l : Ledger} (h : Followed l) : FlagFollowsKey l := by
  intro i e he hcalls hstop v lease hl hlead _
  have hruns : e.runs = true := by
    have hended : e.pc ≠ .ended := by
      rintro hpc
      rw [hpc] at hcalls
      cases hcalls
    simp [Elector.runs, hstop, hended]
  have hterm := ((h.follows i e he).held hruns v lease hl hlead).2
  cases hpc : e.pc with
  | holding => exact (h.follows i e he).flagged (.inl hpc)
  | keepingAlive => exact (h.follows i e he).flagged (.inr hpc)
  | decided won =>
      rw [hpc] at hcalls
      cases hcalls
  | _ =>
      rw [hpc] at hterm
      cases hterm

/-- A call of `put_if_absent` returns true exactly when the value under the key is
its own, in the runs in which no answered attempt finds a key that an earlier
attempt of the call has created, and in no others. An elector has its flag
between its calls as long as the leader key holds a value under a live lease of
its own, in the runs in which no put whose attempt was given up creates the key
late, and no term ends at a keepalive while its lease is live. -/
theorem answer_and_flag {value : String} {entry : Option String} {leaseLive : Bool}
    {calls : List PutIfAbsent.Act} {u : PutIfAbsent.Call}
    (hcall : run PutIfAbsent.step (PutIfAbsent.start value entry leaseLive) calls = some u)
    {w : World} {as : List Act} {l : Ledger} (hinit : Initial w)
    (hrun : run Ledger.step (.start w) as = some l) :
    (Keeps PutIfAbsent.step (fun c act => PutIfAbsent.findsNoOwn c act = true)
        (PutIfAbsent.start value entry leaseLive) calls ↔
      ∀ bs c, bs <+: calls →
        run PutIfAbsent.step (PutIfAbsent.start value entry leaseLive) bs = some c →
          PutIfAbsent.Honest c) ∧
      (Keeps Ledger.step (fun l act => keepsFlag l act = true) (.start w) as → FlagFollowsKey l) := by
  refine ⟨PutIfAbsent.honest_run_iff hcall, fun hkeeps => ?_⟩
  have hfollowed : Followed l := run_guarded (I := Followed)
    (fun s a t hs hg ht => followed_step hs hg ht) (followed_start hinit) hkeeps hrun
  exact hfollowed.flag

/-- The first elector wins, and its first keepalive is answered. -/
def heldTerm : List Act :=
  answeredRound 0 1 ++ [Act.daemon 0 (.proceed 2), .attempt 0 .answered 2]

theorem flag_heldTerm : ∃ l, run Ledger.step (.start twoElectors) heldTerm = some l ∧
    FlagFollowsKey l := by
  have hrun : (run (checked Ledger.step keepsFlag) (.start twoElectors) heldTerm).isSome = true := by
    decide +kernel
  have hcall : (run PutIfAbsent.step (PutIfAbsent.start "value" none true) [.attempt .answered]).isSome =
      true := by decide +kernel
  obtain ⟨l, hl⟩ := Option.isSome_iff_exists.mp hrun
  obtain ⟨u, hu⟩ := Option.isSome_iff_exists.mp hcall
  obtain ⟨hkeeps, hplain⟩ := keeps_of_checked hl
  exact ⟨l, hplain, (answer_and_flag hu initial_twoElectors hplain).2 hkeeps⟩

/-- The answer to the claim of the key is lost, and the next attempt finds the
key of the first. -/
def lostClaim : List Act :=
  [.daemon 0 (.proceed 1), .attempt 0 .answered 1, .attempt 0 (.unanswered "timeout") 1, .land 0,
    .attempt 0 .answered 2, .daemon 0 (.proceed 2), .attempt 0 .answered 2]

/-- The call returns false although it created the key, and the elector follows
its own key. -/
theorem lost_claim_follows_itself :
    (∃ u, run PutIfAbsent.step (PutIfAbsent.start "value" none true)
        [.attempt (.unanswered "timeout"), .land 0, .attempt .answered] = some u ∧
      ¬PutIfAbsent.Honest u) ∧
    ∃ l, run Ledger.step (.start twoElectors) lostClaim = some l ∧ ¬FlagFollowsKey l := by
  constructor
  · have hrun : (run PutIfAbsent.step (PutIfAbsent.start "value" none true)
        [.attempt (.unanswered "timeout"), .land 0, .attempt .answered]).any
          (fun u => u.key.own && u.result.any fun r => r.toOption = some false) = true := by
      decide +kernel
    obtain ⟨u, hu, htest⟩ := (Option.any_eq_true _ _).mp hrun
    rw [Bool.and_eq_true] at htest
    obtain ⟨r, hresult, hr⟩ := (Option.any_eq_true _ _).mp htest.2
    refine ⟨u, hu, fun hhonest => ?_⟩
    cases r with
    | error e => cases hr
    | ok b =>
        cases b with
        | false => exact Bool.false_ne_true ((hhonest false hresult).mpr htest.1)
        | true => cases hr
  · have hrun : (run Ledger.step (.start twoElectors) lostClaim).any (fun l =>
        l.world.store.isLive 1 && (l.owned 0).contains 1 &&
        l.world.store.leader.any (fun v => v.2 = 1) && l.world.electors[0]?.any
          fun e => e.pc.betweenCalls && !e.stopping && !e.isLeader) = true := by
      decide +kernel
    obtain ⟨l, hl, htest⟩ := (Option.any_eq_true _ _).mp hrun
    simp only [Bool.and_eq_true, List.contains_iff_mem] at htest
    obtain ⟨⟨⟨hlive, hown⟩, hkey⟩, helector⟩ := htest
    obtain ⟨x, hx, hlease⟩ := (Option.any_eq_true _ _).mp hkey
    obtain ⟨e, he, htest⟩ := (Option.any_eq_true _ _).mp helector
    simp only [Bool.and_eq_true, Bool.not_eq_true'] at htest
    obtain ⟨⟨hcalls, hstop⟩, hflag⟩ := htest
    obtain ⟨v, lease⟩ := x
    obtain rfl : lease = 1 := of_decide_eq_true hlease
    refine ⟨l, hl, fun hfollows => ?_⟩
    have hset := hfollows 0 e he hcalls hstop v 1 hown hx hlive
    rw [hflag] at hset
    cases hset

end MilvusOnprem.LeaderElection
