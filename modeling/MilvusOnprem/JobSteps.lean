import MilvusOnprem.JobStates

/-!
# What a step does to the jobs

A step executes at most one request, moves at most one owner or one sweep, and
leaves under way only what was in flight. From this follows what holds of every
record in the world, that a terminated record says when it ended, and that a
dead job, which no task has and of which only terminal records are under way,
stays dead.
-/
namespace MilvusOnprem.Jobs

open EtcdClient GuardedRuns

/-! ## Moves -/

def OwnerAct.reading : OwnerAct → Option ℤ
  | .begin now | .tick now | .close now => some now
  | .log _ | .progress _ | .complete | .raise _ | .cancel => none

/-- What an action reads from the clock. -/
def Act.reading : Act → Option ℤ
  | .create _ _ _ _ _ now | .startSweep _ _ _ now | .sweepNext _ now => some now
  | .owner _ l => l.reading
  | .ownerAttempt .. | .flushAttempt .. | .sweepAttempt .. | .crash _ | .land _ | .lose _ => none

/-- The record whose PUT etcd executes in a step. -/
def executedPut (w : World) : Act → Option Job
  | .ownerAttempt id .answered => (w.owners.get id).bind Owner.call
  | .flushAttempt id .answered => (w.owners.get id).bind fun o => o.flusher.puts.head?
  | .sweepAttempt sid .answered => (w.sweeps.get sid).bind fun s => s.puts.head?
  | .land k => w.strays[k]?.bind Request.record
  | _ => none

/-- A terminated record says when it ended, as `prune_old` needs it. -/
def Ended (r : Job) : Prop := r.state.terminal = true → r.finishedAt.isSome = true

/-- An owner moves, with what it reads from the clock. -/
inductive Owner.Step (o : Owner) : Option ℤ → Owner → Prop
  | act {l : OwnerAct} {o' : Owner} {abandoned : List Job} :
      o.act l = some (o', abandoned) → Step o l.reading o'
  | attempt {job : Job} (res : Option (Except Exc Reply)) :
      o.call = some job → Step o none (o.attempted res)
  | flush {record : Job} {tries : ℕ} (res : Option (Except Exc Reply)) :
      o.flusher = .flushing record tries → Step o none (o.flushAttempted record tries res)

/-- A closing owner says when its job ended. -/
structure Owner.Good (id : String) (o : Owner) : Prop where
  ok : o.Ok id
  closing : o.pc = .closing → o.job.finishedAt.isSome = true

theorem Owner.Good.ended {id : String} {o : Owner} (h : o.Good id) {r : Job} (hr : r ∈ o.puts) :
    Ended r := by
  intro hterminal
  obtain ⟨-, ⟨-, hrunning⟩ | hphase⟩ := h.ok.licenses hr
  · rw [hterminal] at hrunning
    cases hrunning
  · rcases List.mem_append.mp hr with hr | hr
    · have hcall := Option.mem_toList.mp hr
      unfold Owner.call at hcall
      split at hcall
      · next hpc => simp [Owner.phase, hpc] at hphase
      · next hpc => simp [Owner.phase, hpc] at hphase
      · next hpc =>
          cases hcall
          exact h.closing hpc
      · cases hcall
    · obtain ⟨tries, hf⟩ := mem_flusher_puts.mp hr
      rw [(h.ok.flushed r tries hf).2] at hterminal
      cases hterminal

theorem Owner.Step.moves {id : String} {o o' : Owner} {reading : Option ℤ} (hs : o.Step reading o') (h : o.Ok id) :
    ∃ abandoned, Owner.Moves id o o' abandoned := by
  cases hs with
  | act hact => exact ⟨_, h.act hact⟩
  | attempt res hcall => exact ⟨_, h.attempted hcall res⟩
  | flush res hf => exact ⟨_, h.flushAttempted hf res⟩

/-- The task starts to close when it has noted the time. -/
theorem Owner.Step.closing {o o' : Owner} {reading : Option ℤ} (hs : o.Step reading o') (hpc : o'.pc = .closing)
    (h : o.pc = .closing → o.job.finishedAt.isSome = true) : o'.job.finishedAt.isSome = true := by
  cases hs with
  | @act l o' abandoned hact =>
      cases l <;> simp only [Owner.act] at hact
      case close now =>
        split_ifs at hact
        cases hact
        rfl
      case cancel =>
        split at hact <;> cases hact
        · cases hpc
        · cases hpc
        · cases hpc
        · cases hpc
        · exact h hpc
      all_goals
        split_ifs at hact with hold
        cases hact
        first
        | cases hpc
        | simp_all
  | attempt res hcall =>
      cases res with
      | none => exact h hpc
      | some res =>
          change (o.answered res).pc = .closing at hpc
          unfold Owner.answered at hpc
          split at hpc <;> cases hpc
  | flush res hf =>
      cases res with
      | none => exact h hpc
      | some res => exact h hpc

theorem Owner.Step.good {id : String} {o o' : Owner} {reading : Option ℤ} (hs : o.Step reading o') (h : o.Good id) :
    o'.Good id := by
  obtain ⟨abandoned, hmoves⟩ := hs.moves h.ok
  exact ⟨hmoves.ok, fun hpc => hs.closing hpc h.closing⟩

inductive Sweep.Step (w : World) (s : Sweep) : Act → ℕ → Sweep → Prop
  | next {sid : ℕ} {now : ℤ} {pc : SweepPc} :
      s.next now = some pc → Step w s (.sweepNext sid now) sid { s with pc := pc, tries := 0 }
  | attempt {sid : ℕ} {q : Request} (a : Attempt) : s.call = some q →
      Step w s (.sweepAttempt sid a) sid
        (s.attempted (attemptLate serve s.tries w.store w.strays q a).2)

/-! ## Steps -/

section Steps

variable {w v : World} {a : Act}

theorem used_step (hs : step w a = some v) {id : String} (hid : id ∈ w.usedIds) :
    id ∈ v.usedIds := by
  cases a with
  | create k node type params isLeader now =>
      simp only [step] at hs
      split_ifs at hs
      cases hs
      exact List.mem_cons_of_mem k hid
  | flushAttempt k a =>
      simp only [step, Option.bind_eq_bind, Option.bind_eq_some_iff] at hs
      obtain ⟨o, -, hs⟩ := hs
      split at hs <;> cases hs
      exact hid
  | startSweep sid node kind now =>
      simp only [step] at hs
      split_ifs at hs
      cases hs
      exact hid
  | crash node =>
      cases hs
      exact hid
  | lose k =>
      cases hs
      exact hid
  | _ =>
      simp only [step, Option.bind_eq_bind, Option.bind_eq_some_iff, Option.some.injEq] at hs
      grind

/-- An owner is as it was, or it is new, or it moves. -/
theorem owners_step (hs : step w a = some v) {id : String} {o' : Owner}
    (ho' : v.owners.get id = some o') :
    w.owners.get id = some o' ∨
      (id ∉ w.usedIds ∧ id ∈ v.usedIds ∧ ∃ node type params now,
        o' = ⟨pendingJob id node type params now, .creating, 0, .idle⟩) ∨
      ∃ o, w.owners.get id = some o ∧ o.Step a.reading o' := by
  have hput : ∀ {k : String} {p : Owner}, (w.owners.put k p).get id = some o' →
      w.owners.get id = some o' ∨ id = k ∧ o' = p := by
    intro k p h
    rw [OrderedMap.get_put] at h
    split_ifs at h with hk
    · exact .inr ⟨hk.symm, (Option.some.inj h).symm⟩
    · exact .inl h
  cases a with
  | create k node type params isLeader now =>
      simp only [step] at hs
      split_ifs at hs with hcond
      cases hs
      rcases hput ho' with hsame | ⟨rfl, rfl⟩
      · exact .inl hsame
      · exact .inr (.inl ⟨hcond.2.2, List.mem_cons_self, node, type, params, now, rfl⟩)
  | owner k l =>
      simp only [step, Option.bind_eq_bind, Option.bind_eq_some_iff, Option.some.injEq] at hs
      obtain ⟨o, ho, ⟨p, abandoned⟩, hact, rfl⟩ := hs
      rcases hput ho' with hsame | ⟨rfl, rfl⟩
      · exact .inl hsame
      · exact .inr (.inr ⟨o, ho, .act hact⟩)
  | ownerAttempt k a =>
      simp only [step, Option.bind_eq_bind, Option.bind_eq_some_iff, Option.some.injEq] at hs
      obtain ⟨o, ho, job, hcall, rfl⟩ := hs
      rcases hput ho' with hsame | ⟨rfl, rfl⟩
      · exact .inl hsame
      · exact .inr (.inr ⟨o, ho, .attempt _ hcall⟩)
  | flushAttempt k a =>
      simp only [step, Option.bind_eq_bind, Option.bind_eq_some_iff] at hs
      obtain ⟨o, ho, hs⟩ := hs
      split at hs
      · next record tries hf =>
          cases hs
          rcases hput ho' with hsame | ⟨rfl, rfl⟩
          · exact .inl hsame
          · exact .inr (.inr ⟨o, ho, .flush _ hf⟩)
      · cases hs
      · cases hs
  | startSweep sid node kind now =>
      simp only [step] at hs
      split_ifs at hs
      cases hs
      exact .inl ho'
  | sweepNext sid now =>
      simp only [step, Option.bind_eq_bind, Option.bind_eq_some_iff, Option.some.injEq] at hs
      obtain ⟨s, -, pc, -, rfl⟩ := hs
      exact .inl ho'
  | sweepAttempt sid a =>
      simp only [step, Option.bind_eq_bind, Option.bind_eq_some_iff, Option.some.injEq] at hs
      obtain ⟨s, -, q, -, rfl⟩ := hs
      exact .inl ho'
  | crash node =>
      cases hs
      exact .inl (OrderedMap.get_filterValues.mp ho').1
  | land k =>
      simp only [step, Option.bind_eq_bind, Option.bind_eq_some_iff, Option.some.injEq] at hs
      obtain ⟨q, -, rfl⟩ := hs
      exact .inl ho'
  | lose k =>
      cases hs
      exact .inl ho'

/-- A sweep is as it was, or it is new, or it moves. -/
theorem sweeps_step (hs : step w a = some v) {sid : ℕ} {s' : Sweep}
    (hs' : v.sweeps.get sid = some s') :
    w.sweeps.get sid = some s' ∨
      (w.sweeps.get sid = none ∧ ∃ node kind now, s' = .start node kind now) ∨
      ∃ s, w.sweeps.get sid = some s ∧ s.Step w a sid s' := by
  have hput : ∀ {k : ℕ} {p : Sweep}, (w.sweeps.put k p).get sid = some s' →
      w.sweeps.get sid = some s' ∨ sid = k ∧ s' = p := by
    intro k p h
    rw [OrderedMap.get_put] at h
    split_ifs at h with hk
    · exact .inr ⟨hk.symm, (Option.some.inj h).symm⟩
    · exact .inl h
  cases a with
  | create k node type params isLeader now =>
      simp only [step] at hs
      split_ifs at hs
      cases hs
      exact .inl hs'
  | owner k l =>
      simp only [step, Option.bind_eq_bind, Option.bind_eq_some_iff, Option.some.injEq] at hs
      obtain ⟨o, -, ⟨p, abandoned⟩, -, rfl⟩ := hs
      exact .inl hs'
  | ownerAttempt k a =>
      simp only [step, Option.bind_eq_bind, Option.bind_eq_some_iff, Option.some.injEq] at hs
      obtain ⟨o, -, job, -, rfl⟩ := hs
      exact .inl hs'
  | flushAttempt k a =>
      simp only [step, Option.bind_eq_bind, Option.bind_eq_some_iff] at hs
      obtain ⟨o, -, hs⟩ := hs
      split at hs <;> cases hs
      exact .inl hs'
  | startSweep k node kind now =>
      simp only [step] at hs
      split_ifs at hs with hnone
      cases hs
      rcases hput hs' with hsame | ⟨rfl, rfl⟩
      · exact .inl hsame
      · exact .inr (.inl ⟨hnone, node, kind, now, rfl⟩)
  | sweepNext k now =>
      simp only [step, Option.bind_eq_bind, Option.bind_eq_some_iff, Option.some.injEq] at hs
      obtain ⟨s, hget, pc, hpc, rfl⟩ := hs
      rcases hput hs' with hsame | ⟨rfl, rfl⟩
      · exact .inl hsame
      · exact .inr (.inr ⟨s, hget, .next hpc⟩)
  | sweepAttempt k a =>
      simp only [step, Option.bind_eq_bind, Option.bind_eq_some_iff, Option.some.injEq] at hs
      obtain ⟨s, hget, q, hcall, rfl⟩ := hs
      rcases hput hs' with hsame | ⟨rfl, rfl⟩
      · exact .inl hsame
      · exact .inr (.inr ⟨s, hget, .attempt a hcall⟩)
  | crash node =>
      cases hs
      exact .inl (OrderedMap.get_filterValues.mp hs').1
  | land k =>
      simp only [step, Option.bind_eq_bind, Option.bind_eq_some_iff, Option.some.injEq] at hs
      obtain ⟨q, -, rfl⟩ := hs
      exact .inl hs'
  | lose k =>
      cases hs
      exact .inl hs'

/-- A sweep goes on as long as its daemon does. -/
theorem sweep_kept (hs : step w a = some v) {sid : ℕ} {s : Sweep} (hget : w.sweeps.get sid = some s)
    (hlives : a ≠ .crash s.node) : ∃ s', v.sweeps.get sid = some s' ∧ (s' = s ∨ s.Step w a sid s') := by
  have hput : ∀ (k : ℕ) (p : Sweep), ∃ s', (w.sweeps.put k p).get sid = some s' := by
    intro k p
    rw [OrderedMap.get_put]
    split_ifs
    · exact ⟨p, rfl⟩
    · exact ⟨s, hget⟩
  have hsome : ∃ s', v.sweeps.get sid = some s' := by
    cases a with
    | create k node type params isLeader now =>
        simp only [step] at hs
        split_ifs at hs
        cases hs
        exact ⟨s, hget⟩
    | flushAttempt k a =>
        simp only [step, Option.bind_eq_bind, Option.bind_eq_some_iff] at hs
        obtain ⟨o, -, hs⟩ := hs
        split at hs <;> cases hs
        exact ⟨s, hget⟩
    | startSweep k node kind now =>
        simp only [step] at hs
        split_ifs at hs
        cases hs
        exact hput _ _
    | crash node =>
        cases hs
        refine ⟨s, OrderedMap.get_filterValues.mpr ⟨hget, ?_⟩⟩
        exact decide_eq_true fun hnode => hlives (hnode ▸ rfl)
    | lose k =>
        cases hs
        exact ⟨s, hget⟩
    | sweepNext k now =>
        simp only [step, Option.bind_eq_bind, Option.bind_eq_some_iff, Option.some.injEq] at hs
        obtain ⟨p, -, pc, -, rfl⟩ := hs
        exact hput _ _
    | sweepAttempt k a =>
        simp only [step, Option.bind_eq_bind, Option.bind_eq_some_iff, Option.some.injEq] at hs
        obtain ⟨p, -, q, -, rfl⟩ := hs
        exact hput _ _
    | _ =>
        simp only [step, Option.bind_eq_bind, Option.bind_eq_some_iff, Option.some.injEq] at hs
        grind
  obtain ⟨s', hs'⟩ := hsome
  refine ⟨s', hs', ?_⟩
  rcases sweeps_step hs hs' with hsame | ⟨hnone, -⟩ | ⟨s₀, hget₀, hmove⟩
  · exact .inl (Option.some.inj (hsame.symm.trans hget))
  · rw [hget] at hnone
    cases hnone
  · cases hget.symm.trans hget₀
    exact .inr hmove

/-- A PUT that is left under way was in flight. -/
theorem strays_step (hok : ∀ id o, w.owners.get id = some o → o.Ok id) (hs : step w a = some v)
    {r : Job} (hr : .put r ∈ v.strays) : r ∈ w.puts := by
  have hold : .put r ∈ w.strays → r ∈ w.puts := fun h => mem_puts.mpr (.inl h)
  cases a with
  | create k node type params isLeader now =>
      simp only [step] at hs
      split_ifs at hs
      cases hs
      exact hold hr
  | owner id l =>
      simp only [step, Option.bind_eq_bind, Option.bind_eq_some_iff, Option.some.injEq] at hs
      obtain ⟨o, ho, ⟨p, abandoned⟩, hact, rfl⟩ := hs
      rcases List.mem_append.mp hr with hr | hr
      · obtain ⟨q, hq, hqr⟩ := List.mem_map.mp hr
        cases hqr
        exact puts_of_owner ho (((hok id o ho).act hact).abandoned r hq)
      · exact hold hr
  | ownerAttempt id a =>
      simp only [step, Option.bind_eq_bind, Option.bind_eq_some_iff, Option.some.injEq] at hs
      obtain ⟨o, ho, job, hcall, rfl⟩ := hs
      rcases mem_attemptLate hr with hr | hr
      · cases hr
        exact puts_of_owner ho (List.mem_append_left _ (Option.mem_toList.mpr hcall))
      · exact hold hr
  | flushAttempt id a =>
      simp only [step, Option.bind_eq_bind, Option.bind_eq_some_iff] at hs
      obtain ⟨o, ho, hs⟩ := hs
      split at hs
      · next record tries hf =>
          cases hs
          rcases mem_attemptLate hr with hr | hr
          · cases hr
            exact puts_of_owner ho (List.mem_append_right _ (mem_flusher_puts.mpr ⟨tries, hf⟩))
          · exact hold hr
      · cases hs
      · cases hs
  | startSweep k node kind now =>
      simp only [step] at hs
      split_ifs at hs
      cases hs
      exact hold hr
  | sweepNext sid now =>
      simp only [step, Option.bind_eq_bind, Option.bind_eq_some_iff, Option.some.injEq] at hs
      obtain ⟨s, -, pc, -, rfl⟩ := hs
      exact hold hr
  | sweepAttempt sid a =>
      simp only [step, Option.bind_eq_bind, Option.bind_eq_some_iff, Option.some.injEq] at hs
      obtain ⟨s, hget, q, hcall, rfl⟩ := hs
      rcases mem_attemptLate hr with rfl | hr
      · exact puts_of_marking ⟨sid, s, hget, mem_sweep_puts.mpr hcall⟩
      · exact hold hr
  | crash node =>
      cases hs
      rcases List.mem_append.mp hr with hr | hr
      · exact put_mem_inFlight hr
      · exact hold hr
  | land k =>
      simp only [step, Option.bind_eq_bind, Option.bind_eq_some_iff, Option.some.injEq] at hs
      obtain ⟨q, -, rfl⟩ := hs
      exact hold (List.mem_of_mem_eraseIdx hr)
  | lose k =>
      cases hs
      exact hold (List.mem_of_mem_eraseIdx hr)

/-- What a step does to the stored jobs. -/
inductive Stores (w v : World) : Option Job → Prop
  | nothing : v.store = w.store → Stores w v none
  | put {r : Job} : r ∈ w.puts → v.store = w.store.put r.id r → Stores w v (some r)
  | erase {id : String} : v.store = w.store.erase id → Stores w v none

/-- An attempt executes its PUT, or nothing. -/
theorem stores_put {r : Job} {tries : ℕ} {a : Attempt} (hr : r ∈ w.puts)
    (hv : v.store = (attemptLate serve tries w.store w.strays (.put r) a).1.1) :
    Stores w v (if a = .answered then some r else none) := by
  rw [attemptLate_state, after] at hv
  split_ifs at hv ⊢
  · exact .put hr hv
  · exact .nothing hv

theorem store_step (hs : step w a = some v) : Stores w v (executedPut w a) := by
  cases a with
  | create k node type params isLeader now =>
      simp only [step] at hs
      split_ifs at hs
      cases hs
      exact .nothing rfl
  | owner id l =>
      simp only [step, Option.bind_eq_bind, Option.bind_eq_some_iff, Option.some.injEq] at hs
      obtain ⟨o, ho, ⟨p, abandoned⟩, hact, rfl⟩ := hs
      exact .nothing rfl
  | ownerAttempt id a =>
      simp only [step, Option.bind_eq_bind, Option.bind_eq_some_iff, Option.some.injEq] at hs
      obtain ⟨o, ho, job, hcall, rfl⟩ := hs
      have hjob : job ∈ w.puts :=
        puts_of_owner ho (List.mem_append_left _ (Option.mem_toList.mpr hcall))
      have hput : executedPut w (.ownerAttempt id a) = if a = .answered then some job else none := by
        cases a <;> simp [executedPut, ho, hcall]
      rw [hput]
      exact stores_put hjob rfl
  | flushAttempt id a =>
      simp only [step, Option.bind_eq_bind, Option.bind_eq_some_iff] at hs
      obtain ⟨o, ho, hs⟩ := hs
      split at hs
      · next record tries hf =>
          cases hs
          have hrecord : record ∈ w.puts :=
            puts_of_owner ho (List.mem_append_right _ (mem_flusher_puts.mpr ⟨tries, hf⟩))
          have hput : executedPut w (.flushAttempt id a) =
              if a = .answered then some record else none := by
            cases a <;> simp [executedPut, ho, hf, FlusherPc.puts]
          rw [hput]
          exact stores_put hrecord rfl
      · cases hs
      · cases hs
  | startSweep k node kind now =>
      simp only [step] at hs
      split_ifs at hs
      cases hs
      exact .nothing rfl
  | sweepNext sid now =>
      simp only [step, Option.bind_eq_bind, Option.bind_eq_some_iff, Option.some.injEq] at hs
      obtain ⟨s, -, pc, -, rfl⟩ := hs
      exact .nothing rfl
  | sweepAttempt sid a =>
      simp only [step, Option.bind_eq_bind, Option.bind_eq_some_iff, Option.some.injEq] at hs
      obtain ⟨s, hget, q, hcall, rfl⟩ := hs
      have hput : executedPut w (.sweepAttempt sid a) =
          if a = .answered then q.record else none := by
        have hhead : s.puts.head? = q.record := by
          cases hpc : s.pc <;> simp only [Sweep.call, hpc] at hcall <;> cases hcall <;>
            simp [Sweep.puts, hpc, Request.record]
        cases a <;> simp [executedPut, hget, hhead]
      rw [hput]
      cases q with
      | put r => exact stores_put (puts_of_marking ⟨sid, s, hget, mem_sweep_puts.mpr hcall⟩) rfl
      | delete k =>
          simp only [attemptLate_state, after, Request.record, ite_self]
          split_ifs
          · exact .erase rfl
          · exact .nothing rfl
      | list =>
          simp only [attemptLate_state, after, Request.record, ite_self]
          split_ifs
          · exact .nothing rfl
          · exact .nothing rfl
  | crash node =>
      cases hs
      exact .nothing rfl
  | land k =>
      simp only [step, Option.bind_eq_bind, Option.bind_eq_some_iff, Option.some.injEq] at hs
      obtain ⟨q, hq, rfl⟩ := hs
      simp only [executedPut, hq, Option.bind_some]
      cases q with
      | put r => exact .put (mem_puts.mpr (.inl (List.mem_of_getElem? hq))) rfl
      | delete id => exact .erase rfl
      | list => exact .nothing rfl
  | lose k =>
      cases hs
      exact .nothing rfl

end Steps

/-! ## The records of a world -/

/-- The jobs that a sweep still holds. -/
def Sweep.jobs (s : Sweep) : List Job :=
  match s.pc with
  | .todo jobs => jobs
  | .marking job rest | .deleting job rest => job :: rest
  | .listing | .ended => []

/-- Every record that is stored, under way or held by a task has an id and a
heartbeat with the property. -/
structure World.Holds (w : World) (P : String → Option ℤ → Prop) : Prop where
  stored : ∀ id j, w.store.get id = some j → j.id = id ∧ P j.id j.lastHeartbeat
  strays : ∀ r, .put r ∈ w.strays → P r.id r.lastHeartbeat
  owners : ∀ id o, w.owners.get id = some o →
    P o.job.id o.job.lastHeartbeat ∧ ∀ r ∈ o.flusher.puts, P r.id r.lastHeartbeat
  sweeps : ∀ sid s, w.sweeps.get sid = some s → ∀ r ∈ s.jobs, P r.id r.lastHeartbeat

section Holds

variable {w v : World} {P : String → Option ℤ → Prop}

theorem Owner.holds_puts {o : Owner} (h : P o.job.id o.job.lastHeartbeat)
    (hf : ∀ r ∈ o.flusher.puts, P r.id r.lastHeartbeat) : ∀ r ∈ o.puts, P r.id r.lastHeartbeat := by
  intro r hr
  rcases List.mem_append.mp hr with hr | hr
  · have hcall := Option.mem_toList.mp hr
    unfold Owner.call at hcall
    split at hcall <;> cases hcall <;> exact h
  · exact hf r hr

/-- The tasks of a job give their record no other id, and no heartbeat but the
time of the step. -/
theorem Owner.holds_act {o o' : Owner} {l : OwnerAct} {abandoned : List Job}
    (hnow : ∀ now ∈ l.reading, ∀ id h, P id h → P id (some now))
    (h : P o.job.id o.job.lastHeartbeat) (hf : ∀ r ∈ o.flusher.puts, P r.id r.lastHeartbeat)
    (ha : o.act l = some (o', abandoned)) :
    (P o'.job.id o'.job.lastHeartbeat ∧ ∀ r ∈ o'.flusher.puts, P r.id r.lastHeartbeat) ∧
      ∀ r ∈ abandoned, P r.id r.lastHeartbeat := by
  have hputs := Owner.holds_puts h hf
  have hidle : ∀ r ∈ FlusherPc.idle.puts, P r.id r.lastHeartbeat := fun r hr => by cases hr
  have hnil : ∀ r ∈ ([] : List Job), P r.id r.lastHeartbeat := fun r hr => by cases hr
  cases l with
  | begin now =>
      simp only [Owner.act] at ha
      split_ifs at ha
      cases ha
      exact ⟨⟨hnow now rfl _ _ h, hf⟩, hnil⟩
  | log line =>
      simp only [Owner.act] at ha
      split_ifs at ha
      cases ha
      have hbeat : (o.job.logWriter line).lastHeartbeat = o.job.lastHeartbeat := by
        simp only [Job.logWriter]
      refine ⟨⟨?_, hf⟩, hnil⟩
      rw [Job.logWriter_id, hbeat]
      exact h
  | progress p =>
      simp only [Owner.act] at ha
      split_ifs at ha
      cases ha
      exact ⟨⟨h, hf⟩, hnil⟩
  | complete =>
      simp only [Owner.act] at ha
      split_ifs at ha
      cases ha
      exact ⟨⟨h, hidle⟩, hf⟩
  | raise error =>
      simp only [Owner.act] at ha
      split_ifs at ha
      cases ha
      exact ⟨⟨h, hidle⟩, hf⟩
  | cancel =>
      have hcall : ∀ r ∈ o.call.toList, P r.id r.lastHeartbeat :=
        fun r hr => hputs r (List.mem_append_left _ hr)
      simp only [Owner.act] at ha
      split at ha
      · cases ha
        exact ⟨⟨h, hf⟩, hcall⟩
      · cases ha
        exact ⟨⟨h, hf⟩, hcall⟩
      · cases ha
        exact ⟨⟨h, hf⟩, hcall⟩
      · cases ha
        exact ⟨⟨h, hidle⟩, hf⟩
      · cases ha
        exact ⟨⟨h, hf⟩, hnil⟩
      · cases ha
      · cases ha
  | tick now =>
      simp only [Owner.act] at ha
      split_ifs at ha
      cases ha
      have hbeat : P o.job.id (some now) := hnow now rfl _ _ h
      refine ⟨⟨hbeat, fun r hr => ?_⟩, hnil⟩
      rw [List.mem_singleton.mp hr]
      exact hbeat
  | close now =>
      simp only [Owner.act] at ha
      split_ifs at ha
      cases ha
      exact ⟨⟨h, hf⟩, hnil⟩

theorem Owner.holds_attempted {o : Owner} (res : Option (Except Exc Reply))
    (h : P o.job.id o.job.lastHeartbeat) (hf : ∀ r ∈ o.flusher.puts, P r.id r.lastHeartbeat) :
    P (o.attempted res).job.id (o.attempted res).job.lastHeartbeat ∧
      ∀ r ∈ (o.attempted res).flusher.puts, P r.id r.lastHeartbeat := by
  cases res with
  | none => exact ⟨h, hf⟩
  | some res =>
      change P (o.answered res).job.id (o.answered res).job.lastHeartbeat ∧ _
      have hanswered : (o.answered res).job = o.job ∧
          ∀ r ∈ (o.answered res).flusher.puts, r ∈ o.flusher.puts := by
        unfold Owner.answered
        split
        · exact ⟨rfl, fun r hr => hr⟩
        · exact ⟨rfl, fun r hr => by cases hr⟩
        · exact ⟨rfl, fun r hr => hr⟩
      rw [hanswered.1]
      exact ⟨h, fun r hr => hf r (hanswered.2 r hr)⟩

theorem Owner.holds_flushAttempted {o : Owner} {record : Job} {tries : ℕ}
    (res : Option (Except Exc Reply)) (hflusher : o.flusher = .flushing record tries)
    (hf : ∀ r ∈ o.flusher.puts, P r.id r.lastHeartbeat) :
    ∀ r ∈ (o.flushAttempted record tries res).flusher.puts, P r.id r.lastHeartbeat := by
  intro r hr
  cases res with
  | none =>
      refine hf r ?_
      rw [hflusher]
      exact hr
  | some res => cases hr

/-- The step of a sweep between its calls keeps its jobs, or marks one of them. -/
theorem Sweep.holds_next {s : Sweep} {now : ℤ} {pc : SweepPc} (h : s.next now = some pc)
    (hjobs : ∀ r ∈ s.jobs, P r.id r.lastHeartbeat) :
    ∀ r ∈ ({ s with pc := pc } : Sweep).jobs, P r.id r.lastHeartbeat := by
  unfold Sweep.next at h
  split at h
  · cases h
    exact fun r hr => by cases hr
  · next job rest hpc =>
      cases h
      simp only [Sweep.jobs, hpc, List.forall_mem_cons] at hjobs
      have hrest : ∀ r ∈ job :: rest, P r.id r.lastHeartbeat := List.forall_mem_cons.mpr hjobs
      have hmarked : ∀ timeout, ∀ r ∈ job.markFailed timeout now :: rest,
          P r.id r.lastHeartbeat := fun timeout => List.forall_mem_cons.mpr hjobs
      unfold Sweep.visit
      split
      · split_ifs
        · exact hmarked _
        · exact hjobs.2
      · split_ifs
        · exact hrest
        · exact hjobs.2
  · cases h

/-- A sweep gets its jobs from the listing. -/
theorem Sweep.holds_attempted {s : Sweep} {q : Request} {tries : ℕ} {strays : List Request}
    {a : Attempt} (hcall : s.call = some q) (hjobs : ∀ r ∈ s.jobs, P r.id r.lastHeartbeat)
    (hstored : ∀ id j, w.store.get id = some j → P j.id j.lastHeartbeat) :
    ∀ r ∈ (s.attempted (attemptLate serve tries w.store strays q a).2).jobs,
      P r.id r.lastHeartbeat := by
  cases hres : (attemptLate serve tries w.store strays q a).2 with
  | none => exact hjobs
  | some res =>
      intro r hr
      change r ∈ ({ s with pc := s.answered res, tries := 0 } : Sweep).jobs at hr
      unfold Sweep.answered at hr
      split at hr
      · next js hpc =>
          simp only [Sweep.call, hpc] at hcall
          cases hcall
          obtain ⟨-, hserve⟩ := attemptLate_ok.mp hres
          cases hserve
          obtain ⟨e, he, rfl⟩ := List.mem_map.mp ((List.mem_insertionSort _).mp hr)
          exact hstored e.1 e.2 (OrderedMap.mem_entries.mp he)
      · next job rest hpc =>
          simp only [Sweep.jobs, hpc, List.forall_mem_cons] at hjobs
          exact hjobs.2 r hr
      · next job rest hpc =>
          simp only [Sweep.jobs, hpc, List.forall_mem_cons] at hjobs
          exact hjobs.2 r hr
      · cases hr

/-- Whatever is in flight for a sweep is one of its jobs. -/
theorem Sweep.puts_subset {s : Sweep} {r : Job} (hr : r ∈ s.puts) : r ∈ s.jobs := by
  unfold Sweep.puts at hr
  split at hr
  · next job rest hpc =>
      rw [List.mem_singleton.mp hr]
      simp [Sweep.jobs, hpc]
  · cases hr

theorem World.Holds.puts (h : w.Holds P) : ∀ r ∈ w.puts, P r.id r.lastHeartbeat := by
  intro r hr
  rcases mem_puts.mp hr with hstray | ⟨id, o, ho, hr⟩ | ⟨sid, s, hs, hr⟩
  · exact h.strays r hstray
  · exact Owner.holds_puts (h.owners id o ho).1 (h.owners id o ho).2 r hr
  · exact h.sweeps sid s hs r (Sweep.puts_subset hr)

theorem World.Holds.mono {Q : String → Option ℤ → Prop} (h : w.Holds P)
    (hPQ : ∀ id b, P id b → Q id b) : w.Holds Q :=
  ⟨fun id j hj => ⟨(h.stored id j hj).1, hPQ _ _ (h.stored id j hj).2⟩,
    fun r hr => hPQ _ _ (h.strays r hr),
    fun id o ho => ⟨hPQ _ _ (h.owners id o ho).1, fun r hr => hPQ _ _ ((h.owners id o ho).2 r hr)⟩,
    fun sid s hs r hr => hPQ _ _ (h.sweeps sid s hs r hr)⟩

theorem Owner.Step.holds {o o' : Owner} {reading : Option ℤ} (hs : o.Step reading o')
    (hnow : ∀ now ∈ reading, ∀ id b, P id b → P id (some now))
    (h : P o.job.id o.job.lastHeartbeat ∧ ∀ r ∈ o.flusher.puts, P r.id r.lastHeartbeat) :
    P o'.job.id o'.job.lastHeartbeat ∧ ∀ r ∈ o'.flusher.puts, P r.id r.lastHeartbeat := by
  cases hs with
  | act hact => exact (Owner.holds_act hnow h.1 h.2 hact).1
  | attempt res hcall => exact Owner.holds_attempted res h.1 h.2
  | flush res hf =>
      refine ⟨?_, Owner.holds_flushAttempted res hf h.2⟩
      cases res <;> exact h.1

theorem Sweep.Step.holds {s s' : Sweep} {a : Act} {sid : ℕ} (hs : s.Step w a sid s')
    (hjobs : ∀ r ∈ s.jobs, P r.id r.lastHeartbeat)
    (hstored : ∀ id j, w.store.get id = some j → P j.id j.lastHeartbeat) :
    ∀ r ∈ s'.jobs, P r.id r.lastHeartbeat := by
  cases hs with
  | next hnext => exact Sweep.holds_next hnext hjobs
  | attempt a hcall => exact Sweep.holds_attempted hcall hjobs hstored

theorem holds_step {a : Act} (hok : ∀ id o, w.owners.get id = some o → o.Ok id) (h : w.Holds P)
    (hnow : ∀ now ∈ a.reading, ∀ id b, P id b → P id (some now))
    (hcreate : ∀ id ∈ v.usedIds, id ∉ w.usedIds → P id none) (hs : step w a = some v) :
    v.Holds P := by
  refine ⟨fun id j hj => ?_, fun r hr => h.puts r (strays_step hok hs hr), fun id o' ho' => ?_,
    fun sid s' hs' => ?_⟩
  · have hstores := store_step hs
    cases hput : executedPut w a with
    | none =>
        rw [hput] at hstores
        cases hstores with
        | nothing hsame => exact h.stored id j (hsame ▸ hj)
        | erase herase =>
            rw [herase, OrderedMap.get_erase] at hj
            split_ifs at hj
            exact h.stored id j hj
    | some r =>
        rw [hput] at hstores
        cases hstores with
        | put hr hstore =>
            rw [hstore, OrderedMap.get_put] at hj
            split_ifs at hj with hid
            · cases hj
              exact ⟨hid, h.puts _ hr⟩
            · exact h.stored id j hj
  · rcases owners_step hs ho' with hsame | ⟨hfresh, hused, node, type, params, now, rfl⟩ | ⟨o, ho, hmove⟩
    · exact h.owners id o' hsame
    · exact ⟨hcreate id hused hfresh, fun r hr => by cases hr⟩
    · exact hmove.holds hnow (h.owners id o ho)
  · rcases sweeps_step hs hs' with hsame | ⟨-, node, kind, now, rfl⟩ | ⟨s, hget, hmove⟩
    · exact h.sweeps sid s' hsame
    · exact fun r hr => by cases hr
    · exact hmove.holds (h.sweeps sid s hget) fun k j hj => (h.stored k j hj).2

end Holds

/-! ## Terminated records -/

structure Sound (w : World) : Prop where
  owners : ∀ id o, w.owners.get id = some o → o.Good id
  strays : ∀ r, .put r ∈ w.strays → Ended r
  marks : ∀ sid s, w.sweeps.get sid = some s → ∀ r ∈ s.puts, r.state = .failed ∧ Ended r
  stored : ∀ id j, w.store.get id = some j → Ended j

theorem Sound.puts {w : World} (h : Sound w) {r : Job} (hr : r ∈ w.puts) : Ended r := by
  rcases mem_puts.mp hr with hstray | ⟨id, o, ho, hr⟩ | ⟨sid, s, hs, hr⟩
  · exact h.strays r hstray
  · exact (h.owners id o ho).ended hr
  · exact (h.marks sid s hs r hr).2

theorem Owner.good_created (id node type : String) (params : List (String × Json)) (now : ℤ) :
    Owner.Good id ⟨pendingJob id node type params now, .creating, 0, .idle⟩ := by
  refine ⟨⟨rfl, fun _ => rfl, fun s hs => (by cases hs), ?_, fun hf => absurd rfl hf⟩,
    fun hpc => by cases hpc⟩
  intro record tries hf
  cases hf

theorem next_marks {s : Sweep} {now : ℤ} {pc : SweepPc} (h : s.next now = some pc) {r : Job}
    (hr : r ∈ ({ s with pc := pc } : Sweep).puts) : r.state = .failed ∧ Ended r := by
  refine ⟨next_puts h hr, fun _ => ?_⟩
  unfold Sweep.next at h
  split at h
  · cases h
    cases hr
  · cases h
    unfold Sweep.visit at hr
    split at hr
    · split_ifs at hr
      · rw [List.mem_singleton.mp hr]
        rfl
      · cases hr
    · split_ifs at hr <;> cases hr
  · cases h

theorem Sweep.Step.marks {w : World} {s s' : Sweep} {a : Act} {sid : ℕ} (hs : s.Step w a sid s')
    {r : Job} (hr : r ∈ s'.puts) : r ∈ s.puts ∨ r.state = .failed ∧ Ended r := by
  cases hs with
  | next hnext => exact .inr (next_marks hnext hr)
  | attempt a hcall => exact .inl (attempted_puts hr)

theorem sound_step {w v : World} {a : Act} (h : Sound w) (hs : step w a = some v) : Sound v := by
  have hok : ∀ id o, w.owners.get id = some o → o.Ok id := fun id o ho => (h.owners id o ho).ok
  refine ⟨fun id o' ho' => ?_, fun r hr => h.puts (strays_step hok hs hr),
    fun sid s' hs' r hr => ?_, fun id j hj => ?_⟩
  · rcases owners_step hs ho' with hsame | ⟨-, -, node, type, params, now, rfl⟩ | ⟨o, ho, hmove⟩
    · exact h.owners id o' hsame
    · exact Owner.good_created id node type params now
    · exact hmove.good (h.owners id o ho)
  · rcases sweeps_step hs hs' with hsame | ⟨-, node, kind, now, rfl⟩ | ⟨s, hget, hmove⟩
    · exact h.marks sid s' hsame r hr
    · cases hr
    · rcases hmove.marks hr with hold | hnew
      · exact h.marks sid s hget r hold
      · exact hnew
  · have hstores := store_step hs
    cases hput : executedPut w a with
    | none =>
        rw [hput] at hstores
        cases hstores with
        | nothing hsame =>
            rw [hsame] at hj
            exact h.stored id j hj
        | erase herase =>
            rw [herase, OrderedMap.get_erase] at hj
            split_ifs at hj
            exact h.stored id j hj
    | some r =>
        rw [hput] at hstores
        cases hstores with
        | put hr hstore =>
            rw [hstore, OrderedMap.get_put] at hj
            split_ifs at hj
            · cases hj
              exact h.puts hr
            · exact h.stored id j hj

/-! ## A dead owner -/

/-- No task has the job, and every PUT of it that is under way is of a terminal
record. -/
def Dead (w : World) (id : String) : Prop :=
  w.phase id = .gone ∧ ∀ r ∈ w.puts, r.id = id → r.state.terminal = true

theorem Phase.Advances.gone {p q : Phase} (h : p.Advances q) (hp : p = .gone) : q = .gone := by
  rcases h with hsame | hgone | ⟨hactive, -⟩
  · exact hsame.trans hp
  · exact hgone
  · rw [hp] at hactive
    cases hactive

theorem dead_step {w v : World} {a : Act} {id : String} (h : Sound w) (hused : id ∈ w.usedIds)
    (hdead : Dead w id) (hs : step w a = some v) : Dead v id := by
  have hok : ∀ id o, w.owners.get id = some o → o.Ok id := fun id o ho => (h.owners id o ho).ok
  have hgone : ∀ {o : Owner}, w.owners.get id = some o → o.phase = .gone :=
    fun ho => (phase_of_get ho).symm.trans hdead.1
  refine ⟨?_, fun r hr hid => ?_⟩
  · cases ho' : v.owners.get id with
    | none => simp only [World.phase, ho']
    | some o' =>
        rw [phase_of_get ho']
        rcases owners_step hs ho' with hsame | ⟨hfresh, -⟩ | ⟨o, ho, hmove⟩
        · exact hgone hsame
        · exact absurd hused hfresh
        · obtain ⟨abandoned, hmoves⟩ := hmove.moves (hok id o ho)
          exact hmoves.phase.gone (hgone ho)
  · rcases mem_puts.mp hr with hstray | ⟨k, o', ho', hro⟩ | ⟨sid, s', hs', hrs⟩
    · exact hdead.2 r (strays_step hok hs hstray) hid
    · rcases owners_step hs ho' with hsame | ⟨hfresh, -, node, type, params, now, rfl⟩ | ⟨o, ho, hmove⟩
      · exact hdead.2 r (puts_of_owner hsame hro) hid
      · have hk := ((Owner.good_created k node type params now).ok.licenses hro).1
        rw [← hk, hid] at hfresh
        exact absurd hused hfresh
      · obtain ⟨abandoned, hmoves⟩ := hmove.moves (hok k o ho)
        rcases hmoves.puts r hro with hold | hlicense
        · exact hdead.2 r (puts_of_owner ho hold) hid
        · obtain ⟨hk, hphase⟩ := hlicense
          rw [hgone (hid ▸ hk ▸ ho)] at hphase
          rcases hphase with ⟨hactive, -⟩ | hclosing
          · cases hactive
          · cases hclosing
    · rcases sweeps_step hs hs' with hsame | ⟨-, node, kind, now, rfl⟩ | ⟨s, hget, hmove⟩
      · exact hdead.2 r (puts_of_marking ⟨sid, s', hsame, hrs⟩) hid
      · cases hrs
      · rcases hmove.marks hrs with hold | ⟨hfailed, -⟩
        · exact hdead.2 r (puts_of_marking ⟨sid, s, hget, hold⟩) hid
        · rw [hfailed]
          rfl

/-- The stored record of the job is terminal and says when it ended, or the job is
deleted. -/
def Finished (w : World) (id : String) : Prop :=
  ∀ j, w.store.get id = some j → j.state.terminal = true ∧ j.finishedAt.isSome = true

/-- A dead job that is finished stays finished. -/
theorem finished_step {w v : World} {a : Act} {id : String} (h : Sound w) (hdead : Dead w id)
    (hfinished : Finished w id) (hs : step w a = some v) : Finished v id := by
  intro j hj
  have hstores := store_step hs
  cases hput : executedPut w a with
  | none =>
      rw [hput] at hstores
      cases hstores with
      | nothing hsame => exact hfinished j (hsame ▸ hj)
      | erase herase =>
          rw [herase, OrderedMap.get_erase] at hj
          split_ifs at hj
          exact hfinished j hj
  | some r =>
      rw [hput] at hstores
      cases hstores with
      | put hr hstore =>
          rw [hstore, OrderedMap.get_put] at hj
          split_ifs at hj with hid
          · cases hj
            have hterminal := hdead.2 _ hr hid
            exact ⟨hterminal, h.puts hr hterminal⟩
          · exact hfinished j hj

end MilvusOnprem.Jobs
