import MilvusOnprem.LeaderLease

/-!
# Waiting for the next election

A loser, and a leader that stepped down, wait for a deletion of the leader key
that a watch shows them. The watch is opened without a start revision, so a
deletion before it is opened, or while it has no stream, is never seen, and the
wait does not look at the key itself. The election is stuck once the key is
absent and every running elector waits with no deletion left to see.

Only the points of the electors and the presence of the key matter for this, and
a step can make the election stuck in four ways: an elector starts to wait while
the key is absent, its stream breaks with the deletion undelivered, it ends, or
the key is deleted while nobody listens.
-/
namespace MilvusOnprem.LeaderElection

open EtcdClient GuardedRuns

/-! ## Points of the run loop -/

namespace Pc

def running (pc : Pc) : Bool := pc ≠ .ended

/-- Waiting in `_await_leader_change`. -/
def waiting : Pc → Bool
  | .awaiting _ => true
  | _ => false

/-- A DELETE is still to be delivered. -/
def awaitsDelete : Pc → Bool
  | .awaiting (.stream pending) => .delete ∈ pending
  | _ => false

/-- Running, and not left to wait for a DELETE that is still to come. -/
def awake : Pc → Bool
  | .ended | .awaiting .opening => false
  | .awaiting (.stream pending) => .delete ∈ pending
  | _ => true

/-- Running, and told of a DELETE that comes now. -/
def hears : Pc → Bool
  | .ended | .awaiting .opening => false
  | _ => true

theorem awake_eq_false {pc : Pc} (h : pc.running = true) :
    pc.awake = false ↔ pc.waiting = true ∧ pc.awaitsDelete = false := by
  cases pc with
  | ended => cases h
  | awaiting watch => cases watch <;> simp [awake, waiting, awaitsDelete]
  | _ => simp [awake, waiting]

theorem running_of_awake {pc : Pc} (h : pc.awake = true) : pc.running = true := by
  cases pc <;> first | rfl | cases h

@[simp] theorem running_notify (pc : Pc) (evs : List Event) :
    (pc.notify evs).running = pc.running := by
  unfold notify
  split <;> rfl

/-- A deletion wakes who is told of it. -/
theorem awake_notify_delete (pc : Pc) : (pc.notify [.delete]).awake = pc.hears := by
  cases pc with
  | awaiting watch => cases watch <;> simp [notify, awake, hears]
  | _ => rfl

end Pc

/-! ## The stuck election -/

def World.pcs (w : World) : List Pc := w.electors.map Elector.pc

/-- The key is absent, and every running elector waits with no DELETE still to be
delivered to it. -/
def Stuck (w : World) : Prop :=
  w.store.leader = none ∧ (∃ pc ∈ w.pcs, pc.running = true) ∧
    ∀ pc ∈ w.pcs, pc.running = true → pc.waiting = true ∧ pc.awaitsDelete = false

/-- Some elector besides the given one is awake. -/
def OthersAwake (w : World) (i : ℕ) : Prop := ∃ pc ∈ w.pcs.eraseIdx i, pc.awake = true

def OthersRun (w : World) (i : ℕ) : Prop := ∃ pc ∈ w.pcs.eraseIdx i, pc.running = true

theorem stuck_iff (w : World) : Stuck w ↔ w.store.leader = none ∧
    (∃ pc ∈ w.pcs, pc.running = true) ∧ ¬∃ pc ∈ w.pcs, pc.awake = true := by
  refine and_congr_right fun _ => and_congr_right fun _ => ?_
  constructor
  · rintro hall ⟨pc, hpc, hawake⟩
    have hrun := Pc.running_of_awake hawake
    rw [(Pc.awake_eq_false hrun).mpr (hall pc hpc hrun)] at hawake
    cases hawake
  · intro hnone pc hpc hrun
    exact (Pc.awake_eq_false hrun).mp (Bool.eq_false_iff.mpr fun h => hnone ⟨pc, hpc, h⟩)

theorem exists_mem_set {l : List Pc} {i : ℕ} (h : i < l.length) (pc : Pc) (p : Pc → Prop) :
    (∃ x ∈ l.set i pc, p x) ↔ p pc ∨ ∃ x ∈ l.eraseIdx i, p x := by
  simp only [(List.set_perm_cons_eraseIdx h pc).mem_iff, List.mem_cons, exists_eq_or_imp]

/-- Stuckness with one elector singled out. -/
theorem stuck_of_set {w v : World} {i : ℕ} {pc : Pc} (hi : i < w.pcs.length)
    (hpcs : v.pcs = w.pcs.set i pc) :
    Stuck v ↔ v.store.leader = none ∧ (pc.running = true ∨ OthersRun w i) ∧
      ¬(pc.awake = true ∨ OthersAwake w i) := by
  rw [stuck_iff, hpcs, exists_mem_set hi, exists_mem_set hi]
  rfl

/-! ## The four ways to get stuck -/

namespace Elector

/-- The step leaves the elector waiting with nothing to be delivered: it goes to
its cooldown watch, or its stream breaks with a DELETE undelivered. -/
def dozes (e : Elector) : LocalAct → Bool
  | .proceed now => e.pc = .top && !e.stopping && now < e.skipRaceUntil
  | .breakWatch => e.pc.awaitsDelete
  | _ => false

/-- The step ends the run loop. -/
def leaves (e : Elector) : LocalAct → Bool
  | .proceed _ => e.pc = .top && e.stopping
  | .cancel | .crash => e.pc.running
  | _ => false

end Elector

def LeaseStore.holds (s : LeaseStore) (lease : ℕ) : Bool := s.leader.any fun v => v.2 = lease

def Request.deletes (s : LeaseStore) : Request → Bool
  | .leaseRevoke lease => s.holds lease
  | _ => false

/-- Whether the leader key is deleted: its lease expires or is revoked. -/
def deletesKey (w : World) : Act → Bool
  | .expire lease => w.store.holds lease
  | .land k => w.strays[k]?.any (Request.deletes w.store)
  | .revokeAttempt i k a _ => a = .answered && w.electors[i]?.any fun e =>
      e.revocations[k]?.any fun r => w.store.holds r.lease
  | .daemon _ _ | .attempt _ _ _ => false

/-- While the key is absent, an elector starts to wait or loses an undelivered
DELETE only if another one is awake, and one that ends leaves another one awake
or none running; the key is deleted only while some running elector is not
waiting or has an open stream. -/
def someoneRaces (w : World) : Act → Prop
  | .daemon i l => ∀ e ∈ w.electors[i]?,
      (e.dozes l = true → w.store.leader ≠ none ∨ OthersAwake w i) ∧
      (e.leaves l = true → w.store.leader ≠ none ∨ OthersAwake w i ∨ ¬OthersRun w i)
  | .attempt i a _ => ∀ e ∈ w.electors[i]?, e.pc = .reading → a = .answered →
      w.store.leader ≠ none ∨ OthersAwake w i
  | a => deletesKey w a = true → (∃ pc ∈ w.pcs, pc.running = true) →
      ∃ pc ∈ w.pcs, pc.hears = true

/-! ## How the key changes -/

/-- The key stays as it is, or it is created, or it is deleted. -/
inductive KeyMove (s t : LeaseStore) : Bool → Prop
  | kept : t.leader = s.leader → KeyMove s t false
  | created : s.leader = none → t.leader ≠ none → KeyMove s t false
  | deleted : s.leader ≠ none → t.leader = none → KeyMove s t true

theorem drop_keyMove (s : LeaseStore) (lease : ℕ) : KeyMove s (s.drop lease) (s.holds lease) := by
  cases hleader : s.leader with
  | none =>
      rw [show s.holds lease = false by simp [LeaseStore.holds, hleader]]
      exact .kept (by simp [LeaseStore.drop, hleader])
  | some v =>
      by_cases hv : v.2 = lease
      · rw [show s.holds lease = true by simp [LeaseStore.holds, hleader, hv]]
        exact .deleted (by simp [hleader]) (by simp [LeaseStore.drop, hleader, hv])
      · rw [show s.holds lease = false by simp [LeaseStore.holds, hleader, hv]]
        exact .kept (by simp [LeaseStore.drop, hleader, hv])

theorem serve_keyMove {s : LeaseStore} (h : s.Sound) (r : Request) :
    KeyMove s (s.serve r).1 (r.deletes s) := by
  cases r with
  | leaseGrant ttl => exact .kept rfl
  | leaseKeepalive lease => exact .kept rfl
  | get => exact .kept rfl
  | leaseRevoke lease =>
      simp only [LeaseStore.serve]
      split_ifs with hlive
      · exact drop_keyMove s lease
      · have hholds : s.holds lease = false := by
          cases hleader : s.leader with
          | none => simp [LeaseStore.holds, hleader]
          | some v =>
              have hbound := h.bound v.1 v.2 hleader
              have hne : v.2 ≠ lease := fun heq => hlive (heq ▸ hbound)
              simp [LeaseStore.holds, hleader, hne]
        rw [Request.deletes, hholds]
        exact .kept rfl
  | putIfAbsent value lease =>
      cases hleader : s.leader with
      | some v =>
          simp only [LeaseStore.serve, hleader]
          exact .kept rfl
      | none =>
          simp only [LeaseStore.serve, hleader]
          split_ifs
          · exact .created hleader (by simp)
          · exact .kept rfl

theorem after_keyMove {s : LeaseStore} (h : s.Sound) (r : Request) (a : Attempt) :
    KeyMove s (s.after r a) (a = .answered && r.deletes s) := by
  by_cases ha : a = .answered
  · rw [LeaseStore.after, EtcdClient.after, if_pos ha]
    simpa [ha] using serve_keyMove h r
  · rw [LeaseStore.after, EtcdClient.after, if_neg ha]
    simpa [ha] using KeyMove.kept (s := s) (t := s) rfl

theorem pcs_put (w : World) (i : ℕ) (e : Elector) : (w.put i e).pcs = w.pcs.set i e.pc :=
  List.map_set

theorem pcs_commit (w : World) (s : LeaseStore) :
    (w.commit s).pcs = w.pcs.map (Pc.notify (changes w.store.leader s.leader)) := by
  simp only [World.pcs, World.commit, List.map_map]
  rfl

theorem pcs_commit_of_eq {w : World} {s : LeaseStore} (h : s.leader = w.store.leader) :
    (w.commit s).pcs = w.pcs := by
  have hid : Pc.notify [] = id := funext Pc.notify_nil
  rw [pcs_commit, h, changes_self, hid, List.map_id]

/-- A change of the store makes an election stuck that was not exactly when it
deletes the key and nobody hears of it. -/
theorem stuck_of_keyMove {w v : World} {s : LeaseStore} {d : Bool}
    (hmove : KeyMove w.store s d) (hw : ¬Stuck w) (hstore : v.store = s)
    (hpcs : v.pcs = (w.commit s).pcs) :
    Stuck v ↔ ¬(d = true → (∃ pc ∈ w.pcs, pc.running = true) →
      ∃ pc ∈ w.pcs, pc.hears = true) := by
  rw [stuck_iff, hstore, hpcs]
  cases hmove with
  | kept hsame =>
      rw [pcs_commit_of_eq hsame, hsame, ← stuck_iff]
      simpa using hw
  | created hnone hsome => simp [hsome]
  | deleted hsome hnone =>
      obtain ⟨v, hv⟩ := Option.ne_none_iff_exists'.mp hsome
      rw [pcs_commit]
      simp only [hnone, hv, changes, List.mem_map, exists_exists_and_eq_and, Pc.running_notify,
        Pc.awake_notify_delete, true_and, forall_const, Classical.not_imp]

/-! ## One step -/

/-- What a step of a daemon by itself does to its place in the race. -/
theorem act_race {e e' : Elector} {l : LocalAct} (ha : e.act l = some e') :
    (e.leaves l = true ∧ e.dozes l = false ∧ e'.pc = .ended) ∨
    (e.dozes l = true ∧ e.leaves l = false ∧ e'.pc.running = true ∧ e'.pc.awake = false) ∨
    (e.leaves l = false ∧ e.dozes l = false ∧ (e'.pc.awake = true ∨
      e.pc.awake = false ∧ e'.pc.running = e.pc.running)) := by
  have hrevoke : ∀ (f : Elector) cooldown, (f.revoke cooldown).pc = f.pc := by
    intro f cooldown
    unfold Elector.revoke
    split <;> rfl
  have hsame : ∀ {pc : Pc}, pc = e.pc → pc.awake = true ∨
      e.pc.awake = false ∧ pc.running = e.pc.running := by
    rintro pc rfl
    cases e.pc.awake with
    | true => exact .inl rfl
    | false => exact .inr ⟨rfl, rfl⟩
  cases l with
  | proceed now =>
      simp only [Elector.act, Elector.proceed] at ha
      simp only [Elector.leaves, Elector.dozes]
      split at ha
      · next hpc =>
          split_ifs at ha with hstop hskip <;> cases ha
          · exact .inl ⟨by simp [hpc, hstop], by simp [hstop], rfl⟩
          · exact .inr (.inl ⟨by simp [hpc, hstop, hskip], by simp [hstop], rfl, rfl⟩)
          · exact .inr (.inr ⟨by simp [hstop], by simp [hskip], .inl rfl⟩)
      · next hpc =>
          cases ha
          exact .inr (.inr ⟨by simp [hpc], by simp [hpc], .inl rfl⟩)
      · next hpc =>
          cases ha
          exact .inr (.inr ⟨by simp [hpc], by simp [hpc], .inl rfl⟩)
      · next hpc =>
          cases ha
          refine .inr (.inr ⟨by simp [hpc], by simp [hpc], .inl ?_⟩)
          split_ifs <;> rfl
      · next hpc =>
          cases ha
          exact .inr (.inr ⟨by simp [hpc], by simp [hpc], .inl rfl⟩)
      · cases ha
  | openWatch =>
      simp only [Elector.act] at ha
      split at ha <;> cases ha
      next hpc => exact .inr (.inr ⟨rfl, rfl, .inr ⟨by rw [hpc]; rfl, by rw [hpc]; rfl⟩⟩)
  | deliver =>
      refine .inr (.inr ⟨rfl, rfl, ?_⟩)
      simp only [Elector.act] at ha
      split at ha <;> cases ha
      · exact .inl rfl
      · next rest hpc =>
          by_cases hmem : Event.delete ∈ rest
          · exact .inl (by simp [Elector.goto, Pc.awake, hmem])
          · exact .inr ⟨by simp [hpc, Pc.awake, hmem], by rw [hpc]; rfl⟩
  | breakWatch =>
      simp only [Elector.act] at ha
      split at ha <;> cases ha
      next pending hpc =>
        by_cases hmem : Event.delete ∈ pending
        · exact .inr (.inl ⟨by simp [Elector.dozes, hpc, Pc.awaitsDelete, hmem], rfl, rfl, rfl⟩)
        · refine .inr (.inr ⟨rfl, by simp [Elector.dozes, hpc, Pc.awaitsDelete, hmem], .inr ?_⟩)
          exact ⟨by simp [hpc, Pc.awake, hmem], by rw [hpc]; rfl⟩
  | stepDown cooldown =>
      cases ha
      refine .inr (.inr ⟨rfl, rfl, hsame ?_⟩)
      split_ifs
      · exact hrevoke e _
      · rfl
  | stop =>
      cases ha
      exact .inr (.inr ⟨rfl, rfl, hsame (hrevoke _ none)⟩)
  | cancel =>
      cases ha
      have hend : e.cancelled.pc = .ended := by
        unfold Elector.cancelled
        split <;> rfl
      by_cases hrun : e.pc.running = true
      · exact .inl ⟨hrun, rfl, hend⟩
      · have hpc : e.pc = .ended := by simpa [Pc.running] using hrun
        exact .inr (.inr ⟨by simpa [Elector.leaves] using hrun, rfl, hsame (hend.trans hpc.symm)⟩)
  | crash =>
      cases ha
      by_cases hrun : e.pc.running = true
      · exact .inl ⟨hrun, rfl, rfl⟩
      · have hpc : e.pc = .ended := by simpa [Pc.running] using hrun
        exact .inr (.inr ⟨by simpa [Elector.leaves] using hrun, rfl, hsame hpc.symm⟩)
  | restart =>
      simp only [Elector.act] at ha
      split_ifs at ha
      cases ha
      exact .inr (.inr ⟨rfl, rfl, .inl rfl⟩)

/-- The call of the run loop leaves the elector awake, unless it goes on to wait. -/
theorem answered_awake {e : Elector} {r : Request} (hr : e.request = some r)
    (hpc : e.pc ≠ .reading) (now : ℕ) (res : Except Exc Reply) :
    (e.answered now res).pc.awake = true := by
  have hanswers := Elector.answers hr now res
  generalize e.pc = pc, e.answered now res = e' at hanswers hpc
  cases hanswers with
  | read hlog => exact absurd rfl hpc
  | _ => rfl

/-- A request of the run loop does not delete the key. -/
theorem request_deletes {e : Elector} {r : Request} (hr : e.request = some r)
    (s : LeaseStore) : r.deletes s = false := by
  unfold Elector.request at hr
  split at hr
  · cases hr
    rfl
  · cases hr
    rfl
  · obtain ⟨lease, -, rfl⟩ := Option.map_eq_some_iff.mp hr
    rfl
  · cases hr
    rfl
  · cases hr

theorem awake_of_request {e : Elector} {r : Request} (hr : e.request = some r) :
    e.pc.awake = true := by
  unfold Elector.request at hr
  split at hr
  · next hpc => rw [hpc]; rfl
  · next hpc => rw [hpc]; rfl
  · next hpc => rw [hpc]; rfl
  · next hpc => rw [hpc]; rfl
  · cases hr

/-- The fields of a revocation do not matter for the points. -/
theorem pcs_set_notified {w : World} {i : ℕ} {e : Elector} (he : w.electors[i]? = some e)
    (s : LeaseStore) : (w.commit s).pcs.set i (e.pc.notify (changes w.store.leader s.leader)) =
      (w.commit s).pcs := by
  have hget : (w.commit s).pcs[i]? = some (e.pc.notify (changes w.store.leader s.leader)) := by
    rw [pcs_commit]
    simp only [World.pcs, List.getElem?_map, he, Option.map_some]
  obtain ⟨hi, hval⟩ := List.getElem?_eq_some_iff.mp hget
  rw [← hval, List.set_getElem_self]

/-- Stuckness after an attempt of the call of one elector. -/
theorem stuck_of_call {w v : World} (h : Consistent w) {e : Elector} {r : Request}
    (hr : e.request = some r) {i : ℕ} (hi : i < w.pcs.length) {a : Attempt} {pc : Pc}
    (hstore : v.store = w.store.after r a)
    (hpcs : v.pcs = (w.commit (w.store.after r a)).pcs.set i pc) :
    Stuck v ↔ (w.store.after r a).leader = none ∧ (pc.running = true ∨ OthersRun w i) ∧
      ¬(pc.awake = true ∨ OthersAwake w i) := by
  have hmove := after_keyMove h.sound r a
  rw [request_deletes hr, Bool.and_false] at hmove
  cases hmove with
  | kept hsame =>
      rw [pcs_commit_of_eq hsame] at hpcs
      rw [stuck_of_set hi hpcs, hstore]
  | created hnone hsome =>
      rw [stuck_iff, hstore]
      simp [hsome]

/-- From an election that is not stuck, a step makes it stuck exactly when it
takes the last elector out of the race. -/
theorem stuck_step {w v : World} {a : Act} (h : Consistent w) (hw : ¬Stuck w)
    (hstep : step w a = some v) : Stuck v ↔ ¬someoneRaces w a := by
  have hlength : ∀ {i : ℕ} {e : Elector}, w.electors[i]? = some e → i < w.pcs.length := by
    intro i e he
    rw [World.pcs, List.length_map]
    exact (List.getElem?_eq_some_iff.mp he).1
  have hpcs : ∀ {i : ℕ} {e : Elector}, w.electors[i]? = some e → w.pcs = w.pcs.set i e.pc := by
    intro i e he
    have hget : w.pcs[i]? = some e.pc := by simp only [World.pcs, List.getElem?_map, he, Option.map_some]
    obtain ⟨hi, hval⟩ := List.getElem?_eq_some_iff.mp hget
    rw [← hval, List.set_getElem_self]
  cases steps_of_step hstep with
  | @daemon i l e e' he hact =>
      have hbefore := stuck_of_set (hlength he) (hpcs he)
      have hafter : Stuck (w.put i e') ↔ w.store.leader = none ∧
          (e'.pc.running = true ∨ OthersRun w i) ∧ ¬(e'.pc.awake = true ∨ OthersAwake w i) :=
        stuck_of_set (hlength he) (pcs_put w i e')
      have hguard : someoneRaces w (.daemon i l) ↔
          (e.dozes l = true → w.store.leader ≠ none ∨ OthersAwake w i) ∧
          (e.leaves l = true → w.store.leader ≠ none ∨ OthersAwake w i ∨ ¬OthersRun w i) := by
        simp only [someoneRaces, he, Option.mem_def, Option.some.injEq, forall_eq']
      rw [hafter, hguard]
      rcases act_race hact with ⟨hleave, hdoze, hend⟩ | ⟨hdoze, hleave, hrun, hsleep⟩ |
        ⟨hleave, hdoze, hkeep⟩
      · simp [hend, hleave, hdoze, Pc.running, Pc.awake, and_comm]
      · simp [hleave, hdoze, hrun, hsleep]
      · rcases hkeep with hawake | ⟨hsleep, hsame⟩
        · simp [hawake, hleave, hdoze]
        · rw [hbefore, hsleep, ← hsame] at hw
          simpa [hleave, hdoze] using fun hkey hrun _ => by simpa [hkey, hrun] using hw
  | @again i a now e r strays he hr hgoes =>
      have hguard : someoneRaces w (.attempt i a now) := by
        intro f hf hreading ha
        cases he.symm.trans hf
        simp only [Elector.request, hreading, Option.some.injEq] at hr
        subst hr
        exact absurd ha (hgoes _ rfl)
      have hafter := stuck_of_call (v := ({ w.commit (w.store.after r a) with
        strays := strays }.put i { e with tries := e.tries + 1 })) h hr (hlength he) rfl
        (pcs_put _ _ _)
      refine iff_of_false (fun hstuck => ?_) (not_not.mpr hguard)
      exact (hafter.mp hstuck).2.2 (.inl (awake_of_request hr))
  | @returns i a now e r strays res he hr hres =>
      have hafter := stuck_of_call (v := ({ w.commit (w.store.after r a) with
        strays := strays }.put i (e.answered now res))) h hr (hlength he) rfl
        (pcs_put _ _ _)
      have hguard : someoneRaces w (.attempt i a now) ↔ (e.pc = .reading → a = .answered →
          w.store.leader ≠ none ∨ OthersAwake w i) := by
        simp only [someoneRaces, he, Option.mem_def, Option.some.injEq, forall_eq']
      by_cases hreading : e.pc = .reading
      · simp only [Elector.request, hreading, Option.some.injEq] at hr
        subst hr
        by_cases ha : a = .answered
        · have hvalue := (hres _).mpr ⟨ha, rfl⟩
          rw [hafter, hguard]
          by_cases hkey : w.store.leader = none
          · have hwait : (e.answered now res).pc = .awaiting .opening := by
              rw [hvalue, hkey]
              simp [Elector.answered, hreading, logRaises, Elector.goto]
            simp [hwait, hkey, hreading, ha, LeaseStore.after, EtcdClient.after, LeaseStore.serve, Pc.running, Pc.awake]
          · simp [hkey, ha, LeaseStore.after, EtcdClient.after, LeaseStore.serve]
        · refine iff_of_false (fun hstuck => ?_) (not_not.mpr (hguard.mpr fun _ hans => absurd hans ha))
          refine (hafter.mp hstuck).2.2 (.inl ?_)
          cases res with
          | ok y => exact absurd ((hres y).mp rfl).1 ha
          | error err => simp [Elector.answered, hreading, Elector.goto, Pc.awake]
      · refine iff_of_false (fun hstuck => ?_) (not_not.mpr (hguard.mpr fun hr' => absurd hr' hreading))
        exact (hafter.mp hstuck).2.2 (.inl (answered_awake hr hreading now res))
  | @revoke i k a now e r s strays revocations skipRaceUntil he hr hs =>
      have hdel : deletesKey w (.revokeAttempt i k a now) =
          (decide (a = .answered) && (Request.leaseRevoke r.lease).deletes w.store) := by
        simp only [deletesKey, he, hr, Option.any_some, Request.deletes]
      have hmove := hs ▸ after_keyMove h.sound (.leaseRevoke r.lease) a
      rw [← hdel] at hmove
      exact stuck_of_keyMove hmove hw rfl ((pcs_put _ _ _).trans (pcs_set_notified he s))
  | @land k r strays hr =>
      have hdel : deletesKey w (.land k) = r.deletes w.store := by
        simp only [deletesKey, hr, Option.any_some]
      exact stuck_of_keyMove (hdel ▸ serve_keyMove h.sound r) hw rfl rfl
  | @expire lease hlive => exact stuck_of_keyMove (drop_keyMove w.store lease) hw rfl rfl

/-! ## Runs -/

theorem not_stuck_initial {w : World} (h : Initial w) : ¬Stuck w := by
  rintro ⟨-, ⟨pc, hpc, hrun⟩, hall⟩
  obtain ⟨e, he, rfl⟩ := List.mem_map.mp hpc
  have hwait := (hall e.pc hpc hrun).1
  rw [h.created e he] at hwait
  cases hwait

/-- A run of any number of electors never reaches a stuck election if and only if
every step of it leaves someone in the race. -/
theorem never_stuck {w₀ w : World} {as : List Act} (h₀ : Initial w₀)
    (hr : run step w₀ as = some w) :
    Keeps step someoneRaces w₀ as ↔
      ∀ bs v, bs <+: as → run step w₀ bs = some v → ¬Stuck v :=
  keeps_iff_never (fun _ _ _ => consistent_step) (fun _ _ _ => stuck_step)
    (consistent_initial h₀) (not_stuck_initial h₀) hr

instance (w : World) (i : ℕ) : Decidable (OthersAwake w i) :=
  inferInstanceAs (Decidable (∃ pc ∈ w.pcs.eraseIdx i, pc.awake = true))

instance (w : World) (i : ℕ) : Decidable (OthersRun w i) :=
  inferInstanceAs (Decidable (∃ pc ∈ w.pcs.eraseIdx i, pc.running = true))

instance : DecidablePred Stuck := fun w =>
  inferInstanceAs (Decidable (w.store.leader = none ∧ (∃ pc ∈ w.pcs, pc.running = true) ∧
    ∀ pc ∈ w.pcs, pc.running = true → pc.waiting = true ∧ pc.awaitsDelete = false))

instance decidableRaces (w : World) : ∀ a, Decidable (someoneRaces w a)
  | .daemon i l => inferInstanceAs (Decidable (∀ e ∈ w.electors[i]?,
      (e.dozes l = true → w.store.leader ≠ none ∨ OthersAwake w i) ∧
      (e.leaves l = true → w.store.leader ≠ none ∨ OthersAwake w i ∨ ¬OthersRun w i)))
  | .attempt i a _ => inferInstanceAs (Decidable (∀ e ∈ w.electors[i]?,
      e.pc = .reading → a = .answered → w.store.leader ≠ none ∨ OthersAwake w i))
  | .revokeAttempt i k a now => inferInstanceAs (Decidable (
      deletesKey w (.revokeAttempt i k a now) = true → (∃ pc ∈ w.pcs, pc.running = true) →
        ∃ pc ∈ w.pcs, pc.hears = true))
  | .land k => inferInstanceAs (Decidable (deletesKey w (.land k) = true →
      (∃ pc ∈ w.pcs, pc.running = true) → ∃ pc ∈ w.pcs, pc.hears = true))
  | .expire lease => inferInstanceAs (Decidable (deletesKey w (.expire lease) = true →
      (∃ pc ∈ w.pcs, pc.running = true) → ∃ pc ∈ w.pcs, pc.hears = true))

/-- The first elector wins, the second one loses and waits; the lease expires, and
the second one is told and wins. -/
def handoverRun : List Act :=
  answeredRound 0 1 ++ answeredRound 1 1 ++ [Act.attempt 1 .answered 1, .daemon 1 .openWatch,
    .expire 1, .daemon 1 .deliver] ++ answeredRound 1 2

theorem never_stuck_handover : ∃ w, run step twoElectors handoverRun = some w ∧
    ∀ bs v, bs <+: handoverRun → run step twoElectors bs = some v → ¬Stuck v := by
  have hrun : (run step twoElectors handoverRun).isSome = true := by decide +kernel
  obtain ⟨w, hw⟩ := Option.isSome_iff_exists.mp hrun
  have hkeeps : Keeps step someoneRaces twoElectors handoverRun := by decide +kernel
  exact ⟨w, hw, (never_stuck initial_twoElectors hw).mp hkeeps⟩

def loneElector : World := ⟨emptyStore, [.create ⟨"node-1", "10.0.0.1", 15⟩], []⟩

/-- A lone elector wins, steps down with a cooldown of 20, loses its keepalive,
and opens its watch after the key is gone. -/
def strandedRun : List Act :=
  answeredRound 0 1 ++ [Act.daemon 0 (.stepDown 20), .revokeAttempt 0 0 .answered 2,
    .daemon 0 (.proceed 3), .attempt 0 .answered 4, .daemon 0 (.proceed 5), .daemon 0 .openWatch]

/-- The cooldown ends, but the elector that stepped down never races again. -/
theorem stranded_after_stepDown : ∃ w, Reachable step Initial w ∧ Stuck w := by
  have hrun : (run step loneElector strandedRun).any (fun w => decide (Stuck w)) = true := by
    decide +kernel
  obtain ⟨w, hw, htest⟩ := (Option.any_eq_true _ _).mp hrun
  refine ⟨w, ⟨loneElector, strandedRun, ?_, hw⟩, of_decide_eq_true htest⟩
  refine ⟨fun v lease hv => (by cases hv), fun lease hl => (by cases hl), ?_⟩
  intro e he
  simp only [loneElector, List.mem_cons, List.not_mem_nil, or_false] at he
  exact he ▸ rfl

end MilvusOnprem.LeaderElection
