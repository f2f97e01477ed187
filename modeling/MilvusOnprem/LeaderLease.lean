import MilvusOnprem.LeaderElection

/-!
# The leader flag and the leader's lease

The flag of an elector and the leader key change at different moments: the lease
may die while the flag is still set, and another elector may win before the
first one notices. What holds in every reachable state is about the lease: as
long as the lease of a term is live, the key holds the value of that term, and
no two electors have the same lease.
-/
namespace MilvusOnprem.LeaderElection

open EtcdClient GuardedRuns

/-! ## What etcd keeps -/

namespace LeaseStore

/-- The key is bound to a live lease, and live leases have been granted. -/
structure Sound (s : LeaseStore) : Prop where
  bound : ∀ v lease, s.leader = some (v, lease) → s.isLive lease = true
  numbered : ∀ lease, s.isLive lease = true → lease < s.nextLease

/-- What later states of the store owe to an earlier one: a granted lease that
died stays dead, and the key keeps its value while its lease is live. -/
structure Evolves (s t : LeaseStore) : Prop where
  sound : Sound t
  next : s.nextLease ≤ t.nextLease
  live : ∀ lease, t.isLive lease = true → lease < s.nextLease → s.isLive lease = true
  kept : ∀ v lease, s.leader = some (v, lease) → t.isLive lease = true →
    t.leader = some (v, lease)

theorem Evolves.refl {s : LeaseStore} (h : Sound s) : Evolves s s :=
  ⟨h, le_rfl, fun _ hl _ => hl, fun _ _ hv _ => hv⟩

theorem isLive_drop (s : LeaseStore) (lease l : ℕ) :
    (s.drop lease).isLive l = if lease = l then false else s.isLive l := by
  simp only [isLive, drop, OrderedMap.get_erase]
  split_ifs <;> rfl

theorem leader_drop {s : LeaseStore} {lease : ℕ} {v : String × ℕ} :
    (s.drop lease).leader = some v ↔ s.leader = some v ∧ v.2 ≠ lease := by
  simp only [drop, Option.filter_eq_some_iff, decide_eq_true_eq]

theorem drop_evolves {s : LeaseStore} (h : Sound s) (lease : ℕ) :
    Evolves s (s.drop lease) := by
  have hlive : ∀ l, (s.drop lease).isLive l = true → lease ≠ l ∧ s.isLive l = true := by
    intro l hl
    rw [isLive_drop] at hl
    split_ifs at hl with heq
    exact ⟨heq, hl⟩
  refine ⟨⟨?_, fun l hl => h.numbered l (hlive l hl).2⟩, le_rfl, fun l hl _ => (hlive l hl).2, ?_⟩
  · intro v l hv
    obtain ⟨hv, hne⟩ := leader_drop.mp hv
    rw [isLive_drop, if_neg (Ne.symm hne)]
    exact h.bound v l hv
  · intro v l hv hl
    exact leader_drop.mpr ⟨hv, Ne.symm (hlive l hl).1⟩

theorem serve_evolves {s : LeaseStore} (h : Sound s) (r : Request) :
    Evolves s (s.serve r).1 := by
  cases r with
  | leaseKeepalive lease => exact .refl h
  | get => exact .refl h
  | leaseRevoke lease =>
      simp only [serve]
      split_ifs
      · exact drop_evolves h lease
      · exact .refl h
  | leaseGrant ttl =>
      have hlive : ∀ l, (s.serve (.leaseGrant ttl)).1.isLive l = true →
          l = s.nextLease ∨ s.isLive l = true := by
        intro l hl
        simp only [serve, isLive, OrderedMap.get_put] at hl
        split_ifs at hl with heq
        · exact .inl heq.symm
        · exact .inr hl
      have hkeep : ∀ l, s.isLive l = true → (s.serve (.leaseGrant ttl)).1.isLive l = true := by
        intro l hl
        simp only [serve, isLive, OrderedMap.get_put]
        split_ifs
        · rfl
        · exact hl
      refine ⟨⟨fun v l hv => hkeep l (h.bound v l hv), ?_⟩, Nat.le_succ _, ?_, fun _ _ hv _ => hv⟩
      · intro l hl
        change l < s.nextLease + 1
        rcases hlive l hl with rfl | hl
        · omega
        · have := h.numbered l hl
          omega
      · intro l hl hlt
        exact (hlive l hl).resolve_left (by omega)
  | putIfAbsent value lease =>
      cases hleader : s.leader with
      | some v =>
          simp only [serve, hleader]
          exact .refl h
      | none =>
          simp only [serve, hleader]
          split_ifs with hlive
          · refine ⟨⟨?_, h.numbered⟩, le_rfl, fun _ hl _ => hl, ?_⟩
            · intro v l hv
              cases hv
              exact hlive
            · intro v l hv
              rw [hleader] at hv
              cases hv
          · exact .refl h

/-- A put that etcd reports as done is the value of the key. -/
theorem serve_putIfAbsent_succeeded {s t : LeaseStore} {value : String} {lease : ℕ}
    (h : s.serve (.putIfAbsent value lease) = (t, .ok (.succeeded true))) :
    t.leader = some (value, lease) := by
  cases hleader : s.leader with
  | some v => simp [serve, hleader] at h
  | none =>
      simp only [serve, hleader] at h
      split_ifs at h
      · cases h
        rfl
      · simp at h

end LeaseStore

open LeaseStore

theorem after_evolves {s : LeaseStore} (h : Sound s) (r : Request) (a : Attempt) :
    Evolves s (s.after r a) := by
  unfold LeaseStore.after EtcdClient.after
  split_ifs
  · exact serve_evolves h r
  · exact .refl h

/-! ## What one elector keeps -/

/-- The points at which `put_if_absent` has returned true and the term is not
released. -/
def Pc.inTerm : Pc → Bool
  | .decided won => won
  | .holding | .keepingAlive => true
  | _ => false

/-- The points outside a term and outside the claim of the key. -/
def Pc.idle : Pc → Bool
  | .claiming _ _ | .holding | .keepingAlive => false
  | .decided won => !won
  | _ => true

/-- How an elector and the store agree: the flag is set only inside a term, and
while the lease of the term is live the key holds the value of the term. -/
structure Tracks (s : LeaseStore) (e : Elector) : Prop where
  flagged : e.isLeader = true → e.pc = .holding ∨ e.pc = .keepingAlive
  numbered : ∀ lease, e.leaseId = some lease → lease < s.nextLease
  claims : ∀ v lease, e.pc = .claiming v lease →
    e.leaseId = some lease ∧ ∃ now, v = leaderValue e.cfg now lease
  term : e.pc.inTerm = true → ∃ lease, e.leaseId = some lease ∧
    (s.isLive lease = true → ∃ now, s.leader = some (leaderValue e.cfg now lease, lease))

namespace Tracks

variable {s t : LeaseStore} {e : Elector}

theorem idle (hnumbered : ∀ lease, e.leaseId = some lease → lease < s.nextLease)
    (hflag : e.isLeader = false) (hpc : e.pc.idle = true) : Tracks s e := by
  refine ⟨fun h => ?_, hnumbered, fun v lease h => ?_, fun h => ?_⟩
  · rw [hflag] at h
    cases h
  · rw [h] at hpc
    cases hpc
  · cases hp : e.pc <;> simp_all [Pc.idle, Pc.inTerm]

theorem create (s : LeaseStore) (cfg : ElectorConfig) : Tracks s (.create cfg) :=
  .idle (fun _ h => by cases h) rfl rfl

/-- Outside a term the flag is not set. -/
theorem unflagged (h : Tracks s e) (hpc : e.pc ≠ .holding) (hpc' : e.pc ≠ .keepingAlive) :
    e.isLeader = false := by
  cases hl : e.isLeader with
  | false => rfl
  | true => exact ((h.flagged hl).elim hpc hpc').elim

theorem evolves (h : Tracks s e) (hst : Evolves s t) : Tracks t e := by
  refine ⟨h.flagged, fun lease hl => (h.numbered lease hl).trans_le hst.next, h.claims, ?_⟩
  intro hterm
  obtain ⟨lease, hlease, hkey⟩ := h.term hterm
  refine ⟨lease, hlease, fun hlive => ?_⟩
  obtain ⟨now, hnow⟩ := hkey (hst.live lease hlive (h.numbered lease hlease))
  exact ⟨now, hst.kept _ lease hnow hlive⟩

theorem notify (h : Tracks s e) (evs : List Event) : Tracks s (e.notify evs) := by
  by_cases hwait : ∃ watch, e.pc = .awaiting watch
  · obtain ⟨watch, hpc⟩ := hwait
    refine .idle h.numbered (h.unflagged (by simp [hpc]) (by simp [hpc])) ?_
    cases watch <;> simp [Elector.notify, hpc, Pc.notify, Pc.idle]
  · have hsame : e.notify evs = e := by
      rw [Elector.notify, Pc.notify_of_ne fun watch hpc => hwait ⟨watch, hpc⟩]
    rwa [hsame]

/-- A step to a point outside a term, by an elector without the flag. -/
theorem goto (h : Tracks s e) (hflag : e.isLeader = false) {pc : Pc} (hpc : pc.idle = true) :
    Tracks s (e.goto pc) :=
  .idle h.numbered hflag hpc

theorem release (h : Tracks s e) {pc : Pc} (hpc : pc.idle = true) : Tracks s (e.release pc) :=
  .idle h.numbered rfl hpc

/-- A step to a point inside the term. -/
theorem hold (h : Tracks s e) (hterm : e.pc.inTerm = true) (flag : Bool) (since : Option ℕ)
    {pc : Pc} (hpc : pc = .holding ∨ pc = .keepingAlive) :
    Tracks s ({ e with isLeader := flag, termStartedAt := since }.goto pc) := by
  refine ⟨fun _ => hpc, h.numbered, fun v lease hc => ?_, fun _ => h.term hterm⟩
  rcases hpc with rfl | rfl <;> cases hc

theorem revoke (h : Tracks s e) (cooldown : Option ℕ) : Tracks s (e.revoke cooldown) := by
  unfold Elector.revoke
  split
  · exact ⟨h.flagged, h.numbered, h.claims, h.term⟩
  · exact h

theorem proceed (h : Tracks s e) {now : ℕ} {e' : Elector} (hp : e.proceed now = some e') :
    Tracks s e' := by
  cases hpc : e.pc with
  | top =>
      have hflag := h.unflagged (by simp [hpc]) (by simp [hpc])
      simp only [Elector.proceed, hpc] at hp
      split_ifs at hp <;> cases hp
      · exact h.goto hflag rfl
      · exact .idle h.numbered rfl rfl
      · exact h.goto hflag rfl
  | decided won =>
      cases won with
      | true =>
          simp only [Elector.proceed, hpc, Option.some.injEq] at hp
          subst hp
          exact h.hold (by rw [hpc]; rfl) true (some now) (.inl rfl)
      | false =>
          simp only [Elector.proceed, hpc, Option.some.injEq] at hp
          subst hp
          exact .idle h.numbered rfl rfl
  | holding =>
      simp only [Elector.proceed, hpc, Option.some.injEq] at hp
      subst hp
      split_ifs
      · exact h.release rfl
      · exact h.hold (by rw [hpc]; rfl) e.isLeader e.termStartedAt (.inr rfl)
  | backingOff =>
      have hflag := h.unflagged (by simp [hpc]) (by simp [hpc])
      simp only [Elector.proceed, hpc, Option.some.injEq] at hp
      subst hp
      exact h.goto hflag rfl
  | granting => simp [Elector.proceed, hpc] at hp
  | claiming value lease => simp [Elector.proceed, hpc] at hp
  | keepingAlive => simp [Elector.proceed, hpc] at hp
  | reading => simp [Elector.proceed, hpc] at hp
  | awaiting watch => simp [Elector.proceed, hpc] at hp
  | ended => simp [Elector.proceed, hpc] at hp

theorem cancelled (h : Tracks s e) : Tracks s e.cancelled := by
  unfold Elector.cancelled
  split
  · exact h.release rfl
  · exact h.release rfl
  · next hpc hpc' => exact h.goto (h.unflagged hpc hpc') rfl

/-- A step of a daemon by itself keeps the agreement. -/
theorem act (h : Tracks s e) {l : LocalAct} {e' : Elector} (ha : e.act l = some e') :
    Tracks s e' := by
  have hwait : ∀ watch, e.pc = .awaiting watch → e.isLeader = false := by
    intro watch hpc
    exact h.unflagged (by simp [hpc]) (by simp [hpc])
  cases l with
  | proceed now => exact h.proceed ha
  | openWatch =>
      simp only [Elector.act] at ha
      split at ha <;> cases ha
      next hpc => exact h.goto (hwait _ hpc) rfl
  | deliver =>
      simp only [Elector.act] at ha
      split at ha <;> cases ha
      · next hpc => exact h.goto (hwait _ hpc) rfl
      · next hpc => exact h.goto (hwait _ hpc) rfl
  | breakWatch =>
      simp only [Elector.act] at ha
      split at ha <;> cases ha
      next hpc => exact h.goto (hwait _ hpc) rfl
  | stepDown cooldown =>
      simp only [Elector.act, Option.some.injEq] at ha
      subst ha
      split_ifs
      · exact h.revoke _
      · exact h
  | stop =>
      cases ha
      have hstop : Tracks s { e with stopping := true } :=
        ⟨h.flagged, h.numbered, h.claims, h.term⟩
      exact hstop.revoke none
  | cancel =>
      cases ha
      exact h.cancelled
  | crash =>
      cases ha
      exact (Tracks.create s e.cfg).goto rfl rfl
  | restart =>
      simp only [Elector.act] at ha
      split_ifs at ha
      cases ha
      exact .create s e.cfg

/-- The result of a call keeps the agreement with the store in which etcd
answered it. The claim of the key is the step that starts a term: the answer
says that the key holds the value, in the state in which it was given. -/
theorem answered (h : Tracks s e) (hst : Evolves s t) {r : Request} (hr : e.request = some r)
    {now : ℕ} {res : Except Exc Reply} (hres : ∀ y, res = .ok y → s.serve r = (t, .ok y)) :
    Tracks t (e.answered now res) := by
  have ht := h.evolves hst
  have hanswers := Elector.answers hr now res
  generalize hpc : e.pc = pc, e.answered now res = e' at hanswers
  have hidle : pc ≠ .holding → pc ≠ .keepingAlive → e.isLeader = false := by
    intro hhold hkeep
    exact h.unflagged (hpc ▸ hhold) (hpc ▸ hkeep)
  have hunflagged : e.isLeader = false → e.isLeader = true → False := by
    intro hoff hon
    rw [hoff] at hon
    cases hon
  cases hanswers with
  | granted =>
      have hanswer := hres _ rfl
      simp only [Elector.request, hpc, Option.some.injEq] at hr
      subst hr
      simp only [LeaseStore.serve, Prod.mk.injEq, Except.ok.injEq, Reply.granted.injEq]
        at hanswer
      obtain ⟨rfl, rfl⟩ := hanswer
      refine ⟨fun hflag => ?_, ?_, ?_, fun hterm => by cases hterm⟩
      · exact (hunflagged (hidle (by simp) (by simp)) hflag).elim
      · rintro l ⟨⟩
        exact Nat.lt_succ_self _
      · rintro v l ⟨⟩
        exact ⟨rfl, now, rfl⟩
  | @decided value lease won =>
      cases won with
      | false => exact ht.goto (hidle (by simp) (by simp)) rfl
      | true =>
          have hanswer := hres _ rfl
          simp only [Elector.request, hpc, Option.some.injEq] at hr
          subst hr
          obtain ⟨hlease, since, rfl⟩ := h.claims value lease hpc
          refine ⟨fun hflag => ?_, ht.numbered, fun v l hc => (by cases hc), fun _ => ?_⟩
          · exact (hunflagged (hidle (by simp) (by simp)) hflag).elim
          · exact ⟨lease, hlease, fun _ => ⟨since, serve_putIfAbsent_succeeded hanswer⟩⟩
  | kept => exact ht.hold (by rw [hpc]; rfl) e.isLeader e.termStartedAt (.inl rfl)
  | lost => exact ht.release rfl
  | read hlog => exact ht.goto (hidle (by simp) (by simp)) rfl
  | failed hhold hkeep => exact ht.goto (hidle hhold hkeep) rfl

end Tracks

/-! ## Where leases come from -/

theorem act_leaseId {e e' : Elector} {l : LocalAct} (ha : e.act l = some e') {lease : ℕ}
    (hl : e'.leaseId = some lease) : e.leaseId = some lease := by
  have hrevoke : ∀ (f : Elector) cooldown, (f.revoke cooldown).leaseId = f.leaseId := by
    intro f cooldown
    unfold Elector.revoke
    split <;> rfl
  cases l with
  | proceed now =>
      simp only [Elector.act, Elector.proceed] at ha
      split at ha
      · split_ifs at ha <;> cases ha <;> exact hl
      · cases ha
        exact hl
      · cases ha
        exact hl
      · cases ha
        split_ifs at hl <;> exact hl
      · cases ha
        exact hl
      · cases ha
  | openWatch =>
      simp only [Elector.act] at ha
      split at ha <;> cases ha
      exact hl
  | deliver =>
      simp only [Elector.act] at ha
      split at ha <;> cases ha <;> exact hl
  | breakWatch =>
      simp only [Elector.act] at ha
      split at ha <;> cases ha
      exact hl
  | stepDown cooldown =>
      cases ha
      split_ifs at hl
      · rwa [hrevoke] at hl
      · exact hl
  | stop =>
      cases ha
      rwa [hrevoke] at hl
  | cancel =>
      cases ha
      unfold Elector.cancelled at hl
      split at hl <;> exact hl
  | crash =>
      cases ha
      cases hl
  | restart =>
      simp only [Elector.act] at ha
      split_ifs at ha
      cases ha
      cases hl

/-- A call leaves the lease of the elector alone, or it is the grant of the next
lease. -/
theorem answered_leaseId {s : LeaseStore} {e : Elector} {r : Request}
    (hr : e.request = some r) {now : ℕ} {res : Except Exc Reply}
    (hres : ∀ y, res = .ok y → (s.serve r).2 = .ok y) {lease : ℕ}
    (hl : (e.answered now res).leaseId = some lease) :
    e.leaseId = some lease ∨ lease = s.nextLease := by
  have hanswers := Elector.answers hr now res
  generalize hpc : e.pc = pc, e.answered now res = e' at hanswers hl
  cases hanswers with
  | granted =>
      have hanswer := hres _ rfl
      simp only [Elector.request, hpc, Option.some.injEq] at hr
      subst hr
      simp only [LeaseStore.serve, Except.ok.injEq, Reply.granted.injEq] at hanswer
      cases hl
      exact .inr hanswer.symm
  | decided => exact .inl hl
  | kept => exact .inl hl
  | lost => exact .inl hl
  | read hlog => exact .inl hl
  | failed hhold hkeep => exact .inl hl

/-! ## The invariant of the election -/

structure Consistent (w : World) : Prop where
  sound : Sound w.store
  tracks : ∀ (i : ℕ) (e : Elector), w.electors[i]? = some e → Tracks w.store e
  distinct : ∀ (i j : ℕ) (a b : Elector) (lease : ℕ), w.electors[i]? = some a → w.electors[j]? = some b →
    a.leaseId = some lease → b.leaseId = some lease → i = j

namespace Consistent

variable {w : World}

theorem commit (h : Consistent w) {s : LeaseStore} (hs : Evolves w.store s) :
    Consistent (w.commit s) := by
  have hback : ∀ (i : ℕ) (e' : Elector), (w.commit s).electors[i]? = some e' →
      ∃ e, w.electors[i]? = some e ∧ e.notify (changes w.store.leader s.leader) = e' := by
    intro i e' he
    simpa only [World.commit, List.getElem?_map, Option.map_eq_some_iff] using he
  refine ⟨hs.sound, ?_, ?_⟩
  · intro i e' he
    obtain ⟨e, hold, rfl⟩ := hback i e' he
    exact ((h.tracks i e hold).evolves hs).notify _
  · intro i j a' b' lease ha hb hla hlb
    obtain ⟨a, holda, rfl⟩ := hback i a' ha
    obtain ⟨b, holdb, rfl⟩ := hback j b' hb
    exact h.distinct i j a b lease holda holdb hla hlb

/-- One elector changes: what is left to show is that it agrees with the store,
and that a lease it did not have is no other elector's. -/
theorem put (h : Consistent w) {i : ℕ} {e e' : Elector} (he : w.electors[i]? = some e)
    (ht : Tracks w.store e')
    (hl : ∀ lease, e'.leaseId = some lease → e.leaseId = some lease ∨
      ∀ (j : ℕ) (b : Elector), w.electors[j]? = some b → b.leaseId ≠ some lease) :
    Consistent (w.put i e') := by
  have hget : ∀ (j : ℕ) (b : Elector), (w.put i e').electors[j]? = some b →
      (j = i ∧ b = e') ∨ (j ≠ i ∧ w.electors[j]? = some b) := by
    intro j b hb
    simp only [World.put, List.getElem?_set] at hb
    split_ifs at hb with hij hlt
    · exact .inl ⟨hij.symm, (Option.some.inj hb).symm⟩
    · exact .inr ⟨Ne.symm hij, hb⟩
  have hother : ∀ (j : ℕ) (b : Elector) (lease : ℕ), j ≠ i → w.electors[j]? = some b →
      e'.leaseId = some lease → b.leaseId ≠ some lease := by
    intro j b lease hj hb hle hlb
    rcases hl lease hle with hle | hfresh
    · exact hj (h.distinct j i b e lease hb he hlb hle)
    · exact hfresh j b hb hlb
  refine ⟨h.sound, ?_, ?_⟩
  · intro j b hb
    rcases hget j b hb with ⟨-, rfl⟩ | ⟨-, hb⟩
    · exact ht
    · exact h.tracks j b hb
  · intro j k a b lease ha hb hla hlb
    rcases hget j a ha with ⟨rfl, rfl⟩ | ⟨hj, holda⟩
    · rcases hget k b hb with ⟨rfl, rfl⟩ | ⟨hk, holdb⟩
      · rfl
      · exact absurd hlb (hother k b lease hk holdb hla)
    · rcases hget k b hb with ⟨rfl, rfl⟩ | ⟨hk, holdb⟩
      · exact (hother j a lease hj holda hlb hla).elim
      · exact h.distinct j k a b lease holda holdb hla hlb

theorem strays (h : Consistent w) (strays : List Request) : Consistent { w with strays := strays } :=
  ⟨h.sound, h.tracks, h.distinct⟩

end Consistent

theorem consistent_step {w v : World} {a : Act} (h : Consistent w) (hstep : step w a = some v) : Consistent v := by
  have hnotified : ∀ {i : ℕ} {e : Elector} (s : LeaseStore), w.electors[i]? = some e →
      (w.commit s).electors[i]? = some (e.notify (changes w.store.leader s.leader)) := by
    intro i e s he
    simp only [World.commit, List.getElem?_map, he, Option.map_some]
  cases steps_of_step hstep with
  | daemon he hact =>
      exact h.put he ((h.tracks _ _ he).act hact) fun lease hl => .inl (act_leaseId hact hl)
  | @again i a now e r strays he hr =>
      have hev := after_evolves h.sound r a
      have ht := (h.tracks _ _ he).evolves hev
      exact ((h.commit hev).strays strays).put (hnotified _ he)
        ⟨ht.flagged, ht.numbered, ht.claims, ht.term⟩ fun lease hl => .inl hl
  | @returns i a now e r strays res he hr hres =>
      have hev := after_evolves h.sound r a
      have hserve : ∀ y, res = .ok y → w.store.serve r = (w.store.after r a, .ok y) := by
        intro y hy
        obtain ⟨ha, hanswer⟩ := (hres y).mp hy
        rw [LeaseStore.after, EtcdClient.after, if_pos ha, ← hanswer]
      refine ((h.commit hev).strays strays).put (hnotified _ he)
        ((h.tracks _ _ he).answered hev hr hserve) fun lease hl => ?_
      rcases answered_leaseId hr (fun y hy => ((hres y).mp hy).2) hl with hl | rfl
      · exact .inl hl
      · refine .inr fun j b hb hlb => ?_
        simp only [World.commit, List.getElem?_map, Option.map_eq_some_iff] at hb
        obtain ⟨b, hb, rfl⟩ := hb
        exact absurd ((h.tracks j b hb).numbered _ hlb) (Nat.lt_irrefl _)
  | @revoke i k a now e r s strays revocations skipRaceUntil he hr hs =>
      have hev : Evolves w.store s := hs ▸ after_evolves h.sound _ a
      have ht := ((h.tracks _ _ he).evolves hev).notify (changes w.store.leader s.leader)
      exact ((h.commit hev).strays strays).put (hnotified s he)
        ⟨ht.flagged, ht.numbered, ht.claims, ht.term⟩ fun lease hl => .inl hl
  | land hr => exact (h.commit (serve_evolves h.sound _)).strays _
  | expire hlive => exact h.commit (drop_evolves h.sound _)

theorem consistent_initial {w : World} (h : Initial w) : Consistent w := by
  have hnone : ∀ (i : ℕ) (e : Elector), w.electors[i]? = some e → e = .create e.cfg := by
    intro i e he
    exact h.created e (List.mem_of_getElem? he)
  refine ⟨⟨h.bound, h.numbered⟩, ?_, ?_⟩
  · intro i e he
    rw [hnone i e he]
    exact .create w.store _
  · intro i j a b lease ha _ hla _
    rw [hnone i a ha] at hla
    cases hla

theorem consistent_reachable {w : World} (h : Reachable step Initial w) : Consistent w :=
  h.invariant (fun _ => consistent_initial) fun _ _ _ => consistent_step

/-! ## The leader and its lease -/

/-- The flag is set and the lease of the term is live. -/
def Leads (s : LeaseStore) (e : Elector) : Prop :=
  e.isLeader = true ∧ ∃ lease, e.leaseId = some lease ∧ s.isLive lease = true

/-- At most one elector has the flag together with a live lease. An elector with
the flag has the lease of its term, and as long as it is live the leader key
holds the value of this elector under it. -/
theorem leads_unique {w : World} (h : Reachable step Initial w) :
    (∀ (i j : ℕ) (a b : Elector), w.electors[i]? = some a → w.electors[j]? = some b →
      Leads w.store a → Leads w.store b → i = j) ∧
    ∀ (i : ℕ) (e : Elector), w.electors[i]? = some e → e.isLeader = true →
      ∃ lease, e.leaseId = some lease ∧ (w.store.isLive lease = true →
        ∃ now, w.store.leader = some (leaderValue e.cfg now lease, lease)) := by
  have hinv := consistent_reachable h
  have hkey : ∀ (i : ℕ) (e : Elector), w.electors[i]? = some e → e.isLeader = true →
      ∃ lease, e.leaseId = some lease ∧ (w.store.isLive lease = true →
        ∃ now, w.store.leader = some (leaderValue e.cfg now lease, lease)) := by
    intro i e he hflag
    have ht := hinv.tracks i e he
    refine ht.term ?_
    rcases ht.flagged hflag with hpc | hpc <;> rw [hpc] <;> rfl
  refine ⟨?_, hkey⟩
  rintro i j a b ha hb ⟨hfa, la, hla, hliveA⟩ ⟨hfb, lb, hlb, hliveB⟩
  obtain ⟨l, hl, hka⟩ := hkey i a ha hfa
  obtain ⟨m, hm, hkb⟩ := hkey j b hb hfb
  cases hla.symm.trans hl
  cases hlb.symm.trans hm
  obtain ⟨now, hnow⟩ := hka hliveA
  obtain ⟨then_, hthen⟩ := hkb hliveB
  have hsame : la = lb := congrArg Prod.snd (Option.some.inj (hnow.symm.trans hthen))
  exact hinv.distinct i j a b la ha hb hla (hsame ▸ hlb)

/-! ## Two electors -/

def twoElectors : World :=
  ⟨emptyStore, [.create ⟨"node-1", "10.0.0.1", 15⟩, .create ⟨"node-2", "10.0.0.2", 15⟩], []⟩

theorem initial_twoElectors : Initial twoElectors := by
  refine ⟨fun v lease hv => (by cases hv), fun lease hl => (by cases hl), ?_⟩
  intro e he
  simp only [twoElectors, List.mem_cons, List.not_mem_nil, or_false] at he
  rcases he with rfl | rfl <;> rfl

/-- A round in which every call of the elector is answered at once. -/
def answeredRound (i now : ℕ) : List Act :=
  [.daemon i (.proceed now), .attempt i .answered now, .attempt i .answered now,
    .daemon i (.proceed now)]

theorem leads_unique_firstRound :
    ∃ w, run step twoElectors (answeredRound 0 1) = some w ∧
      ∃ e, w.electors[0]? = some e ∧ ∃ now, w.store.leader = some (leaderValue e.cfg now 1, 1) := by
  have hrun : (run step twoElectors (answeredRound 0 1)).any (fun w => w.electors[0]?.any
      fun e => e.isLeader && e.leaseId = some 1 && w.store.isLive 1) = true := by decide +kernel
  obtain ⟨w, hw, htest⟩ := (Option.any_eq_true _ _).mp hrun
  obtain ⟨e, he, htest⟩ := (Option.any_eq_true _ _).mp htest
  simp only [Bool.and_eq_true, decide_eq_true_eq] at htest
  obtain ⟨⟨hflag, hlease⟩, hlive⟩ := htest
  obtain ⟨lease, hl, hkey⟩ :=
    (leads_unique ⟨twoElectors, answeredRound 0 1, initial_twoElectors, hw⟩).2 0 e he hflag
  cases hlease.symm.trans hl
  exact ⟨w, hw, e, he, hkey hlive⟩

/-- The first elector wins and steps down; the second one wins. -/
def stepDownRun : List Act :=
  answeredRound 0 1 ++ [Act.daemon 0 (.stepDown 20), .revokeAttempt 0 0 .answered 2] ++
    answeredRound 1 3

/-- After `step_down` has revoked the lease the first elector keeps its flag
until its next keepalive, and the second one wins in between. -/
theorem flag_outlives_stepDown :
    ∃ w, Reachable step Initial w ∧
      ∃ a b, w.electors[0]? = some a ∧ w.electors[1]? = some b ∧
        a.isLeader = true ∧ b.isLeader = true ∧
        a.leaseId = some 1 ∧ w.store.isLive 1 = false := by
  have hrun : (run step twoElectors stepDownRun).any (fun w => !w.store.isLive 1 &&
      w.electors[0]?.any (fun a => a.isLeader && a.leaseId = some 1) &&
      w.electors[1]?.any Elector.isLeader) = true := by decide +kernel
  obtain ⟨w, hw, htest⟩ := (Option.any_eq_true _ _).mp hrun
  simp only [Bool.and_eq_true, Bool.not_eq_true'] at htest
  obtain ⟨⟨hdead, htestA⟩, htestB⟩ := htest
  obtain ⟨a, ha, htestA⟩ := (Option.any_eq_true _ _).mp htestA
  obtain ⟨b, hb, hfb⟩ := (Option.any_eq_true _ _).mp htestB
  simp only [Bool.and_eq_true, decide_eq_true_eq] at htestA
  exact ⟨w, ⟨twoElectors, stepDownRun, initial_twoElectors, hw⟩, a, b, ha, hb, htestA.1, hfb,
    htestA.2, hdead⟩

end MilvusOnprem.LeaderElection
