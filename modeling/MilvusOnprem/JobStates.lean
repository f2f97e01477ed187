import MilvusOnprem.Jobs

/-!
# Terminal states of a job

The PUTs of a job are unconditional, so what decides its state is the order in
which etcd executes those that are under way. A run keeps every terminal state
if two things hold at every step: a sweep starts to mark a job only when its
owner is gone, with no other PUT of the job under way and the job not done
meanwhile; and the PUT of a terminal record is executed only when no earlier PUT
of the job is still under way.

The invariant relates the records under way to the phase of the owner: once a
terminal record is under way, nothing new is written for the job but records of
that state.
-/
namespace MilvusOnprem.Jobs

open EtcdClient GuardedRuns

/-! ## Phases of an owner -/

/-- An active owner may still write records that are not terminal; a closing one
writes records of one state only. -/
inductive Phase where
  | active
  | closing (s : JobState)
  | gone
deriving DecidableEq, Repr

def Owner.phase (o : Owner) : Phase :=
  match o.pc with
  | .creating | .scheduled | .starting | .working => .active
  | .finishing | .closing => .closing o.job.state
  | .ended => .gone

def World.phase (w : World) (id : String) : Phase :=
  match w.owners.get id with
  | some o => o.phase
  | none => .gone

def Request.record : Request → Option Job
  | .put job => some job
  | .delete _ | .list => none

/-- The records of all PUTs under way. -/
def World.puts (w : World) : List Job :=
  w.strays.filterMap Request.record ++ w.owners.entries.flatMap (fun e => e.2.puts) ++
    w.sweeps.entries.flatMap fun e => e.2.puts

theorem mem_puts {w : World} {r : Job} : r ∈ w.puts ↔ .put r ∈ w.strays ∨
    (∃ id o, w.owners.get id = some o ∧ r ∈ o.puts) ∨
    ∃ sid s, w.sweeps.get sid = some s ∧ r ∈ s.puts := by
  have hrecord : (∃ q ∈ w.strays, Request.record q = some r) ↔ .put r ∈ w.strays := by
    constructor
    · rintro ⟨q, hq, hr⟩
      cases q <;> cases hr
      exact hq
    · intro h
      exact ⟨_, h, rfl⟩
  simp only [World.puts, List.mem_append, List.mem_filterMap, List.mem_flatMap, Prod.exists,
    OrderedMap.mem_entries, hrecord, or_assoc]

/-- A sweep has this record in flight. -/
def Marking (w : World) (r : Job) : Prop := ∃ sid s, w.sweeps.get sid = some s ∧ r ∈ s.puts

/-! ## The condition -/

/-- The owner of the job is gone, and at most PUTs of failed records are under
way. -/
def Abandoned (w : World) (id : String) : Prop :=
  w.phase id = .gone ∧ ∀ r ∈ w.puts, r.id = id → r.state = .failed

/-- No stray PUT of the job holds a record that is not terminal. -/
def NoEarlierPut (w : World) (id : String) : Prop :=
  ∀ q ∈ w.strays, ∀ r ∈ Request.record q, r.id = id → r.state.terminal = true

/-- The record is still there, and the job has not become done or cancelled. -/
def StillMarkable (w : World) (id : String) : Prop :=
  ∃ j ∈ w.store.get id, j.state = .running ∨ j.state = .failed

/-- A sweep starts to mark a job only when its owner is really gone and the job
is still as listed; a terminal record is stored by its owner, or by a request
that its owner gave up, only when no earlier PUT of the job is under way. -/
def noStaleWriter (w : World) : Act → Prop
  | .sweepNext sid now => ∀ s ∈ w.sweeps.get sid, ∀ pc ∈ s.next now,
      ∀ r ∈ ({ s with pc := pc } : Sweep).puts, Abandoned w r.id ∧ StillMarkable w r.id
  | .ownerAttempt id a => ∀ o ∈ w.owners.get id, o.pc = .closing → a = .answered →
      NoEarlierPut w id
  | .land k => ∀ q ∈ w.strays[k]?, ∀ r ∈ Request.record q, r.state.terminal = true →
      NoEarlierPut w r.id
  | _ => True

/-! ## One owner -/

/-- The records of an owner belong to its job; until it closes none is terminal,
and the flusher runs beside the worker only. -/
structure Owner.Ok (id : String) (o : Owner) : Prop where
  keyed : o.job.id = id
  active : o.phase = .active → o.job.state.terminal = false
  closing : ∀ s, o.phase = .closing s → s.terminal = true
  flushed : ∀ record tries, o.flusher = .flushing record tries →
    record.id = id ∧ record.state.terminal = false
  beside : o.flusher ≠ .idle → o.pc = .working

/-- What a step may put under way for a job: a record that is not terminal while
its owner is active, or the record of a closing owner. -/
def Owner.Licenses (id : String) (o : Owner) (r : Job) : Prop :=
  r.id = id ∧ (o.phase = .active ∧ r.state.terminal = false ∨ o.phase = .closing r.state)

theorem mem_flusher_puts {f : FlusherPc} {r : Job} :
    r ∈ f.puts ↔ ∃ tries, f = .flushing r tries := by
  cases f with
  | idle => simp [FlusherPc.puts]
  | sleeping => simp [FlusherPc.puts]
  | flushing record tries => simp [FlusherPc.puts, eq_comm]

theorem Owner.Ok.licenses {id : String} {o : Owner} (h : o.Ok id) {r : Job} (hr : r ∈ o.puts) :
    o.Licenses id r := by
  rcases List.mem_append.mp hr with hr | hr
  · have hcall := Option.mem_toList.mp hr
    unfold Owner.call at hcall
    split at hcall
    · next hpc =>
        cases hcall
        have hphase : o.phase = .active := by simp [Owner.phase, hpc]
        exact ⟨h.keyed, .inl ⟨hphase, h.active hphase⟩⟩
    · next hpc =>
        cases hcall
        have hphase : o.phase = .active := by simp [Owner.phase, hpc]
        exact ⟨h.keyed, .inl ⟨hphase, h.active hphase⟩⟩
    · next hpc =>
        cases hcall
        exact ⟨h.keyed, .inr (by simp [Owner.phase, hpc])⟩
    · cases hcall
  · obtain ⟨tries, hf⟩ := mem_flusher_puts.mp hr
    have hpc := h.beside (by simp [hf])
    obtain ⟨hid, hstate⟩ := h.flushed r tries hf
    exact ⟨hid, .inl ⟨by simp [Owner.phase, hpc], hstate⟩⟩

/-- How the phase of an owner may go on. -/
def Phase.Advances (p q : Phase) : Prop := q = p ∨ q = .gone ∨ p = .active ∧ ∃ s, q = .closing s

/-- What a step of the owner without a call does: its phase goes on, every record
it newly has in flight is licensed, and what it abandons was in flight. -/
structure Owner.Moves (id : String) (o o' : Owner) (abandoned : List Job) : Prop where
  ok : o'.Ok id
  phase : o.phase.Advances o'.phase
  puts : ∀ r ∈ o'.puts, r ∈ o.puts ∨ o.Licenses id r
  abandoned : ∀ r ∈ abandoned, r ∈ o.puts

/-- The worker ends in a terminal state. -/
theorem Owner.finish_moves {id : String} {o : Owner} (hpc : o.pc = .working)
    {job : Job} (hid : job.id = id) (hstate : job.state.terminal = true) :
    Owner.Moves id o (o.finish job).1 (o.finish job).2 := by
  have hphase : o.phase = .active := by simp [Owner.phase, hpc]
  refine ⟨⟨hid, fun hp => (by cases hp), ?_, ?_, ?_⟩, .inr (.inr ⟨hphase, _, rfl⟩), ?_, ?_⟩
  · rintro s ⟨⟩
    exact hstate
  · intro record tries hf
    cases hf
  · intro hf
    exact absurd rfl hf
  · intro r hr
    simp [Owner.finish, Owner.puts, Owner.call, FlusherPc.puts] at hr
  · intro r hr
    exact List.mem_append_right _ hr

/-- The task ends without another write. -/
theorem Owner.Ok.ends {id : String} {o : Owner} (h : o.Ok id) (hpc : o.pc ≠ .working)
    {abandoned : List Job} (habandoned : ∀ r ∈ abandoned, r ∈ o.puts) :
    Owner.Moves id o { o with pc := .ended, tries := 0 } abandoned := by
  have hidle : o.flusher = .idle := by
    by_contra hf
    exact hpc (h.beside hf)
  refine ⟨⟨h.keyed, fun hp => (by cases hp), fun s hp => (by cases hp), h.flushed, ?_⟩,
    .inr (.inl rfl), ?_, habandoned⟩
  · exact fun hf => absurd hidle hf
  · intro r hr
    simp [Owner.puts, Owner.call, hidle, FlusherPc.puts] at hr

/-- The worker reports: only its copy of the record changes. -/
theorem Owner.Ok.reports {id : String} {o : Owner} (h : o.Ok id) (hpc : o.pc = .working)
    {job : Job} (hid : job.id = o.job.id) (hstate : job.state = o.job.state) :
    Owner.Moves id o { o with job := job } [] := by
  have hphase : ({ o with job := job } : Owner).phase = .active := by simp [Owner.phase, hpc]
  have hold : o.phase = .active := by simp [Owner.phase, hpc]
  refine ⟨⟨hid.trans h.keyed, fun _ => hstate ▸ h.active hold, ?_, h.flushed, h.beside⟩,
    .inl (hphase.trans hold.symm), ?_, fun r hr => (by cases hr)⟩
  · intro s hs
    rw [hphase] at hs
    cases hs
  · intro r hr
    refine .inl ?_
    simpa only [Owner.puts, Owner.call, hpc] using hr

theorem Owner.Ok.act {id : String} {o o' : Owner} (h : o.Ok id) {l : OwnerAct}
    {abandoned : List Job} (ha : o.act l = some (o', abandoned)) :
    Owner.Moves id o o' abandoned := by
  cases l with
  | begin now =>
      simp only [Owner.act] at ha
      split_ifs at ha with hpc
      cases ha
      have hidle : o.flusher = .idle := by
        by_contra hf
        rw [h.beside hf] at hpc
        cases hpc
      have hphase : o.phase = .active := by simp [Owner.phase, hpc]
      refine ⟨⟨h.keyed, fun _ => rfl, fun s hs => (by cases hs), h.flushed, ?_⟩,
        .inl hphase.symm, ?_, fun r hr => (by cases hr)⟩
      · exact fun hf => absurd hidle hf
      · intro r hr
        simp only [Owner.puts, Owner.call, hidle, FlusherPc.puts, Option.toList_some,
          List.append_nil, List.mem_singleton] at hr
        subst hr
        exact .inr ⟨h.keyed, .inl ⟨hphase, rfl⟩⟩
  | log line =>
      simp only [Owner.act] at ha
      split_ifs at ha with hpc
      cases ha
      exact h.reports hpc (Job.logWriter_id o.job line) (Job.logWriter_state o.job line)
  | progress p =>
      simp only [Owner.act] at ha
      split_ifs at ha with hpc
      cases ha
      exact h.reports hpc rfl rfl
  | complete =>
      simp only [Owner.act] at ha
      split_ifs at ha with hpc
      cases ha
      exact Owner.finish_moves hpc h.keyed rfl
  | raise error =>
      simp only [Owner.act] at ha
      split_ifs at ha with hpc
      cases ha
      exact Owner.finish_moves hpc h.keyed rfl
  | cancel =>
      have hcall : ∀ r ∈ o.call.toList, r ∈ o.puts := fun r hr => List.mem_append_left _ hr
      simp only [Owner.act] at ha
      split at ha
      · next hpc => cases ha; exact h.ends (by simp [hpc]) hcall
      · next hpc => cases ha; exact h.ends (by simp [hpc]) hcall
      · next hpc => cases ha; exact h.ends (by simp [hpc]) hcall
      · next hpc => cases ha; exact Owner.finish_moves hpc h.keyed rfl
      · cases ha
        exact ⟨h, .inl rfl, fun r hr => .inl hr, fun r hr => (by cases hr)⟩
      · cases ha
      · cases ha
  | tick now =>
      simp only [Owner.act] at ha
      split_ifs at ha with hf
      cases ha
      have hpc := h.beside (by simp [hf])
      have hphase : o.phase = .active := by simp [Owner.phase, hpc]
      have hstate := h.active hphase
      have hsame : ∀ job f, ({ o with job := job, flusher := f } : Owner).phase = .active := by
        intro job f
        simp [Owner.phase, hpc]
      refine ⟨⟨h.keyed, fun _ => hstate, ?_, ?_, fun _ => hpc⟩, .inl ((hsame _ _).trans hphase.symm),
        ?_, fun r hr => (by cases hr)⟩
      · intro s hs
        rw [hsame] at hs
        cases hs
      · rintro record tries ⟨⟩
        exact ⟨h.keyed, hstate⟩
      · intro r hr
        simp only [Owner.puts, Owner.call, hpc, FlusherPc.puts, Option.toList_none,
          List.nil_append, List.mem_singleton] at hr
        subst hr
        exact .inr ⟨h.keyed, .inl ⟨hphase, hstate⟩⟩
  | close now =>
      simp only [Owner.act] at ha
      split_ifs at ha with hpc
      cases ha
      have hidle : o.flusher = .idle := by
        by_contra hf
        rw [h.beside hf] at hpc
        cases hpc
      have hphase : o.phase = .closing o.job.state := by simp [Owner.phase, hpc]
      refine ⟨⟨h.keyed, fun hp => (by cases hp), ?_, h.flushed, fun hf => absurd hidle hf⟩,
        .inl hphase.symm, ?_, fun r hr => (by cases hr)⟩
      · rintro s ⟨⟩
        exact h.closing _ hphase
      · intro r hr
        simp only [Owner.puts, Owner.call, hidle, FlusherPc.puts, Option.toList_some,
          List.append_nil, List.mem_singleton] at hr
        subst hr
        exact .inr ⟨h.keyed, .inr hphase⟩

/-- The PUT of the task is tried again, or it returns: the phase stays or the task
ends, and nothing new is in flight. -/
theorem Owner.Ok.attempted {id : String} {o : Owner} (h : o.Ok id) {job : Job}
    (hcall : o.call = some job) (res : Option (Except Exc Reply)) :
    Owner.Moves id o (o.attempted res) [] := by
  have hworking : o.pc ≠ .working := by
    intro hpc
    simp [Owner.call, hpc] at hcall
  have hidle : o.flusher = .idle := by
    by_contra hf
    exact hworking (h.beside hf)
  have hnone : ∀ r ∈ ([] : List Job), r ∈ o.puts := fun r hr => by cases hr
  cases res with
  | none =>
      exact ⟨⟨h.keyed, h.active, h.closing, h.flushed, h.beside⟩, .inl rfl, fun r hr => .inl hr,
        hnone⟩
  | some res =>
      change Owner.Moves id o (o.answered res) []
      unfold Owner.answered
      split
      · next hpc =>
          have hphase : o.phase = .active := by simp [Owner.phase, hpc]
          refine ⟨⟨h.keyed, fun _ => h.active hphase, fun s hs => (by cases hs), h.flushed,
            fun hf => absurd hidle hf⟩, .inl hphase.symm, fun r hr => ?_, hnone⟩
          simp [Owner.puts, Owner.call, hidle, FlusherPc.puts] at hr
      · next hpc =>
          have hphase : o.phase = .active := by simp [Owner.phase, hpc]
          refine ⟨⟨h.keyed, fun _ => h.active hphase, fun s hs => (by cases hs), ?_, fun _ => rfl⟩,
            .inl hphase.symm, fun r hr => ?_, hnone⟩
          · intro record tries hf
            cases hf
          · simp [Owner.puts, Owner.call, FlusherPc.puts] at hr
      · exact h.ends hworking hnone

/-- The PUT of the flusher is tried again, or the flusher sleeps. -/
theorem Owner.Ok.flushAttempted {id : String} {o : Owner} (h : o.Ok id) {record : Job}
    {tries : ℕ} (hf : o.flusher = .flushing record tries) (res : Option (Except Exc Reply)) :
    Owner.Moves id o (o.flushAttempted record tries res) [] := by
  have hpc := h.beside (by simp [hf])
  have hphase : o.phase = .active := by simp [Owner.phase, hpc]
  have hrecord := h.flushed record tries hf
  have hsame : (o.flushAttempted record tries res).phase = o.phase := by
    cases res <;> rfl
  refine ⟨⟨?_, ?_, ?_, ?_, ?_⟩, .inl hsame, ?_, fun r hr => (by cases hr)⟩
  · cases res <;> exact h.keyed
  · cases res <;> exact h.active
  · cases res <;> exact h.closing
  · cases res with
    | none =>
        rintro r t ⟨⟩
        exact hrecord
    | some res =>
        intro r t hr
        cases hr
  · cases res <;> exact fun _ => hpc
  · intro r hr
    refine .inl ?_
    cases res with
    | none =>
        simp only [Owner.flushAttempted, Owner.puts, Owner.call, hpc, FlusherPc.puts,
          Option.toList_none, List.nil_append, List.mem_singleton] at hr
        exact List.mem_append_right _ (mem_flusher_puts.mpr ⟨tries, hr ▸ hf⟩)
    | some res => simp [Owner.flushAttempted, Owner.puts, Owner.call, hpc, FlusherPc.puts] at hr

/-! ## All jobs -/

/-- Every PUT of the job that is under way is of one state, and its owner writes
nothing else. -/
def Closed (w : World) (id : String) (s : JobState) : Prop :=
  (∀ r ∈ w.puts, r.id = id → r.state = s) ∧ (w.phase id = .gone ∨ w.phase id = .closing s)

structure Consistent (w : World) : Prop where
  ok : ∀ id o, w.owners.get id = some o → o.Ok id ∧ id ∈ w.usedIds
  stored : ∀ id j, w.store.get id = some j → id ∈ w.usedIds
  used : ∀ r ∈ w.puts, r.id ∈ w.usedIds
  agree : ∀ r ∈ w.puts, ∀ q ∈ w.puts, r.id = q.id → r.state.terminal = true →
    q.state.terminal = true → r.state = q.state
  ending : ∀ r ∈ w.puts, r.state.terminal = true →
    w.phase r.id = .gone ∨ w.phase r.id = .closing r.state
  marking : ∀ r, Marking w r → Closed w r.id .failed
  terminal : ∀ id j, w.store.get id = some j → j.state.terminal = true → Closed w id j.state

/-- A sweep may start to mark this record. -/
def Markable (w : World) (r : Job) : Prop :=
  r.state = .failed ∧ Abandoned w r.id ∧ StillMarkable w r.id

/-- A step but for what etcd executes in it. -/
structure Evolves (w v : World) : Prop where
  store : v.store = w.store
  used : ∀ id ∈ w.usedIds, id ∈ v.usedIds
  ok : ∀ id o, v.owners.get id = some o → o.Ok id ∧ id ∈ v.usedIds
  phases : ∀ id, (w.phase id).Advances (v.phase id) ∨ id ∉ w.usedIds
  puts : ∀ r ∈ v.puts, r ∈ w.puts ∨
    (∃ o, w.owners.get r.id = some o ∧ o.Licenses r.id r) ∨ Markable w r ∨
    (r.id ∉ w.usedIds ∧ r.id ∈ v.usedIds ∧ r.state.terminal = false)
  marking : ∀ r, Marking v r → Marking w r ∨ Markable w r

theorem phase_of_get {w : World} {id : String} {o : Owner} (h : w.owners.get id = some o) :
    w.phase id = o.phase := by
  simp only [World.phase, h]

/-- A closed job stays closed, unless a sweep marks it with another state. -/
theorem Closed.evolves {w v : World} {id : String} {s : JobState} (hc : Closed w id s)
    (he : Evolves w v) (hid : id ∈ w.usedIds)
    (hmark : StillMarkable w id → Abandoned w id → s = .failed) : Closed v id s := by
  obtain ⟨hputs, hphase⟩ := hc
  refine ⟨?_, ?_⟩
  · rintro r hr rfl
    rcases he.puts r hr with hold | ⟨o, ho, -, hlicense⟩ | ⟨hfailed, habandoned, hstill⟩ |
      ⟨hfresh, -, -⟩
    · exact hputs r hold rfl
    · rw [phase_of_get ho] at hphase
      rcases hlicense with ⟨hactive, -⟩ | hclosing
      · rw [hactive] at hphase
        rcases hphase with h | h <;> cases h
      · rw [hclosing] at hphase
        rcases hphase with h | h <;> cases h
        rfl
    · exact hfailed.trans (hmark hstill habandoned).symm
    · exact absurd hid hfresh
  · rcases he.phases id with (hsame | hgone | ⟨hactive, -⟩) | hfresh
    · exact hsame ▸ hphase
    · exact .inl hgone
    · rw [hactive] at hphase
      rcases hphase with h | h <;> cases h
    · exact absurd hid hfresh

theorem Consistent.evolves {w v : World} (h : Consistent w) (he : Evolves w v) :
    Consistent v := by
  have howner : ∀ {id : String} {o : Owner}, w.owners.get id = some o → id ∈ w.usedIds :=
    fun ho => (h.ok _ _ ho).2
  have hstill : ∀ {id : String}, StillMarkable w id → id ∈ w.usedIds := by
    rintro id ⟨j, hj, -⟩
    exact h.stored id j hj
  -- A terminal record is licensed in one of two ways.
  have hnew : ∀ r ∈ v.puts, r.state.terminal = true → r ∈ w.puts ∨
      (w.phase r.id = .closing r.state ∧ r.id ∈ w.usedIds) ∨ Markable w r := by
    intro r hr hterminal
    rcases he.puts r hr with hold | ⟨o, ho, -, ⟨-, hrunning⟩ | hclosing⟩ | hmark | ⟨-, -, hrunning⟩
    · exact .inl hold
    · rw [hterminal] at hrunning
      cases hrunning
    · exact .inr (.inl ⟨(phase_of_get ho).trans hclosing, howner ho⟩)
    · exact .inr (.inr hmark)
    · rw [hterminal] at hrunning
      cases hrunning
  have hphase : ∀ r ∈ v.puts, r.state.terminal = true →
      (w.phase r.id = .gone ∨ w.phase r.id = .closing r.state) ∧ r.id ∈ w.usedIds := by
    intro r hr hterminal
    rcases hnew r hr hterminal with hold | ⟨hclosing, hused⟩ | ⟨-, habandoned, hmarkable⟩
    · exact ⟨h.ending r hold hterminal, h.used r hold⟩
    · exact ⟨.inr hclosing, hused⟩
    · exact ⟨.inl habandoned.1, hstill hmarkable⟩
  refine ⟨he.ok, ?_, ?_, ?_, ?_, ?_, ?_⟩
  · intro id j hj
    rw [he.store] at hj
    exact he.used id (h.stored id j hj)
  · intro r hr
    rcases he.puts r hr with hold | ⟨o, ho, -⟩ | ⟨-, -, hmarkable⟩ | ⟨-, hused, -⟩
    · exact he.used _ (h.used r hold)
    · exact he.used _ (howner ho)
    · exact he.used _ (hstill hmarkable)
    · exact hused
  · intro r hr q hq hid hr' hq'
    -- Two new records are of one owner or of sweeps; a sweep finds no other state.
    rcases hnew r hr hr' with hold | ⟨hclosing, -⟩ | ⟨hfailed, habandoned, -⟩
    · rcases hnew q hq hq' with hold' | ⟨hclosing', -⟩ | ⟨hfailed', habandoned', -⟩
      · exact h.agree r hold q hold' hid hr' hq'
      · rcases h.ending r hold hr' with hp | hp
        · rw [hid, hclosing'] at hp
          cases hp
        · rw [hid, hclosing'] at hp
          exact (Phase.closing.inj hp).symm
      · exact (habandoned'.2 r hold hid).trans hfailed'.symm
    · have hq'' := (hphase q hq hq').1
      rw [← hid, hclosing] at hq''
      rcases hq'' with hp | hp
      · cases hp
      · exact Phase.closing.inj hp
    · rcases hnew q hq hq' with hold' | ⟨hclosing', -⟩ | ⟨hfailed', -, -⟩
      · exact hfailed.trans (habandoned.2 q hold' hid.symm).symm
      · have hp := habandoned.1
        rw [hid, hclosing'] at hp
        cases hp
      · exact hfailed.trans hfailed'.symm
  · intro r hr hterminal
    obtain ⟨hbefore, hused⟩ := hphase r hr hterminal
    rcases he.phases r.id with (hsame | hgone | ⟨hactive, -⟩) | hfresh
    · exact hsame ▸ hbefore
    · exact .inl hgone
    · rw [hactive] at hbefore
      rcases hbefore with hp | hp <;> cases hp
    · exact absurd hused hfresh
  · intro r hr
    rcases he.marking r hr with hold | ⟨-, habandoned, hmarkable⟩
    · have hputs : r ∈ w.puts := by
        obtain ⟨sid, s, hs, hrs⟩ := hold
        exact mem_puts.mpr (.inr (.inr ⟨sid, s, hs, hrs⟩))
      exact (h.marking r hold).evolves he (h.used r hputs) fun _ _ => rfl
    · have hclosed : Closed w r.id .failed := ⟨habandoned.2, .inl habandoned.1⟩
      exact hclosed.evolves he (hstill hmarkable) fun _ _ => rfl
  · intro id j hj hterminal
    rw [he.store] at hj
    refine (h.terminal id j hj hterminal).evolves he (h.stored id j hj) fun hmarkable _ => ?_
    obtain ⟨j', hj', hstate⟩ := hmarkable
    cases (hj : w.store.get id = some j).symm.trans hj'
    rcases hstate with hrunning | hfailed
    · rw [hrunning] at hterminal
      cases hterminal
    · exact hfailed

/-! ## What etcd executes -/

theorem Consistent.put {w : World} (h : Consistent w) {r : Job} (hr : r.id ∈ w.usedIds)
    (hclosed : r.state.terminal = true → Closed w r.id r.state) :
    Consistent { w with store := w.store.put r.id r } := by
  refine ⟨h.ok, ?_, h.used, h.agree, h.ending, h.marking, ?_⟩
  · intro id j hj
    rw [OrderedMap.get_put] at hj
    split_ifs at hj with hid
    · exact hid ▸ hr
    · exact h.stored id j hj
  · intro id j hj hterminal
    rw [OrderedMap.get_put] at hj
    split_ifs at hj with hid
    · cases hj
      exact hid ▸ hclosed hterminal
    · exact h.terminal id j hj hterminal

theorem Consistent.erase {w : World} (h : Consistent w) (id : String) :
    Consistent { w with store := w.store.erase id } := by
  have hget : ∀ (k : String) (j : Job), (w.store.erase id).get k = some j →
      w.store.get k = some j := by
    intro k j hj
    rw [OrderedMap.get_erase] at hj
    split_ifs at hj
    exact hj
  exact ⟨h.ok, fun k j hj => h.stored k j (hget k j hj), h.used, h.agree, h.ending, h.marking,
    fun k j hj => h.terminal k j (hget k j hj)⟩

/-- What etcd does in a step, after the parties have moved. -/
inductive Executes (w u v : World) : Prop
  | nothing : v = u → Executes w u v
  | put {r : Job} : r ∈ w.puts → (r.state.terminal = true → Closed w r.id r.state) →
      v = { u with store := u.store.put r.id r } → Executes w u v
  | erase {id : String} : v = { u with store := u.store.erase id } → Executes w u v

/-- A settled job: its stored record, if it is not deleted, has the state, and
nothing else can be written. -/
structure Settled (id : String) (s : JobState) (w : World) : Prop where
  used : id ∈ w.usedIds
  closed : Closed w id s
  stored : ∀ j, w.store.get id = some j → j.state = s

theorem Settled.evolves {w v : World} {id : String} {s : JobState} (h : Settled id s w)
    (hs : s.terminal = true) (he : Evolves w v) : Settled id s v := by
  refine ⟨he.used id h.used, h.closed.evolves he h.used ?_, fun j hj => ?_⟩
  · rintro ⟨j, hj, hstate⟩ -
    have hjs := h.stored j hj
    rcases hstate with hrunning | hfailed
    · rw [← hjs, hrunning] at hs
      cases hs
    · exact hjs.symm.trans hfailed
  · rw [he.store] at hj
    exact h.stored j hj

theorem Settled.executes {w u v : World} {id : String} {s : JobState} (hw : Settled id s w)
    (hu : Settled id s u) (he : Executes w u v) : Settled id s v := by
  cases he with
  | nothing heq => exact heq ▸ hu
  | @put r hr _ heq =>
      subst heq
      refine ⟨hu.used, hu.closed, fun j hj => ?_⟩
      rw [OrderedMap.get_put] at hj
      split_ifs at hj with hid
      · cases hj
        exact hw.closed.1 r hr hid
      · exact hu.stored j hj
  | @erase k heq =>
      subst heq
      refine ⟨hu.used, hu.closed, fun j hj => ?_⟩
      rw [OrderedMap.get_erase] at hj
      split_ifs at hj
      exact hu.stored j hj

/-! ## Moves of the parties -/

section Moves

variable {w : World}

theorem puts_of_owner {id : String} {o : Owner} (ho : w.owners.get id = some o) {r : Job}
    (hr : r ∈ o.puts) : r ∈ w.puts :=
  mem_puts.mpr (.inr (.inl ⟨id, o, ho, hr⟩))

theorem puts_of_marking {r : Job} (h : Marking w r) : r ∈ w.puts := by
  obtain ⟨sid, s, hs, hr⟩ := h
  exact mem_puts.mpr (.inr (.inr ⟨sid, s, hs, hr⟩))

/-- One owner moves, with the requests it leaves under way. -/
theorem evolves_owner (h : Consistent w) {id : String} {o o' : Owner} {strays : List Request}
    (ho : w.owners.get id = some o) (hok : o'.Ok id) (hphase : o.phase.Advances o'.phase)
    (hputs : ∀ r ∈ o'.puts, r ∈ o.puts ∨ o.Licenses id r)
    (hstrays : ∀ r, .put r ∈ strays → .put r ∈ w.strays ∨ r ∈ o.puts) :
    Evolves w { w with owners := w.owners.put id o', strays := strays } := by
  refine ⟨rfl, fun _ hid => hid, ?_, ?_, ?_, fun r hr => .inl hr⟩
  · intro k p hp
    rw [OrderedMap.get_put] at hp
    split_ifs at hp with hk
    · cases hp
      exact hk ▸ ⟨hok, (h.ok id o ho).2⟩
    · exact h.ok k p hp
  · intro k
    refine .inl ?_
    by_cases hk : id = k
    · subst hk
      simpa only [World.phase, OrderedMap.get_put_self, ho] using hphase
    · refine .inl ?_
      simp only [World.phase, OrderedMap.get_put_of_ne _ _ hk]
  · intro r hr
    rcases mem_puts.mp hr with hstray | ⟨k, p, hp, hr⟩ | hsweep
    · rcases hstrays r hstray with hold | hold
      · exact .inl (mem_puts.mpr (.inl hold))
      · exact .inl (puts_of_owner ho hold)
    · rw [OrderedMap.get_put] at hp
      split_ifs at hp with hk
      · cases hp
        rcases hputs r hr with hold | hlicense
        · exact .inl (puts_of_owner ho hold)
        · exact .inr (.inl ⟨o, hlicense.1 ▸ ho, hlicense.1 ▸ hlicense⟩)
      · exact .inl (puts_of_owner hp hr)
    · exact .inl (mem_puts.mpr (.inr (.inr hsweep)))

/-- One sweep moves. -/
theorem evolves_sweep (h : Consistent w) (sid : ℕ) {s : Sweep} {strays : List Request}
    (hputs : ∀ r ∈ s.puts, Marking w r ∨ Markable w r)
    (hstrays : ∀ r, .put r ∈ strays → .put r ∈ w.strays ∨ Marking w r) :
    Evolves w { w with sweeps := w.sweeps.put sid s, strays := strays } := by
  have hsweeps : ∀ r, Marking { w with sweeps := w.sweeps.put sid s, strays := strays } r →
      Marking w r ∨ Markable w r := by
    rintro r ⟨k, t, ht, hr⟩
    rw [OrderedMap.get_put] at ht
    split_ifs at ht
    · cases ht
      exact hputs r hr
    · exact .inl ⟨k, t, ht, hr⟩
  refine ⟨rfl, fun _ hid => hid, h.ok, fun id => .inl (.inl rfl), ?_, hsweeps⟩
  intro r hr
  rcases mem_puts.mp hr with hstray | howner | hsweep
  · rcases hstrays r hstray with hold | hold
    · exact .inl (mem_puts.mpr (.inl hold))
    · exact .inl (puts_of_marking hold)
  · exact .inl (mem_puts.mpr (.inr (.inl howner)))
  · rcases hsweeps r hsweep with hold | hmark
    · exact .inl (puts_of_marking hold)
    · exact .inr (.inr (.inl hmark))

/-- Requests land or are lost. -/
theorem evolves_strays (h : Consistent w) {strays : List Request}
    (hstrays : ∀ q ∈ strays, q ∈ w.strays) : Evolves w { w with strays := strays } := by
  refine ⟨rfl, fun _ hid => hid, h.ok, fun id => .inl (.inl rfl), fun r hr => .inl ?_,
    fun r hr => .inl hr⟩
  rcases mem_puts.mp hr with hstray | howner | hsweep
  · exact mem_puts.mpr (.inl (hstrays _ hstray))
  · exact mem_puts.mpr (.inr (.inl howner))
  · exact mem_puts.mpr (.inr (.inr hsweep))

theorem evolves_create (h : Consistent w) {id node type : String}
    {params : List (String × Json)} {now : ℤ} (hid : id ∉ w.usedIds) :
    Evolves w { w with
      owners := w.owners.put id ⟨pendingJob id node type params now, .creating, 0, .idle⟩
      usedIds := id :: w.usedIds } := by
  refine ⟨rfl, fun _ hk => List.mem_cons_of_mem _ hk, ?_, ?_, ?_, fun r hr => .inl hr⟩
  · intro k p hp
    rw [OrderedMap.get_put] at hp
    split_ifs at hp with hk
    · subst hk
      cases hp
      refine ⟨⟨rfl, fun _ => rfl, fun s hs => (by cases hs), ?_, fun hf => absurd rfl hf⟩,
        List.mem_cons_self⟩
      intro record tries hf
      cases hf
    · obtain ⟨hok, hused⟩ := h.ok k p hp
      exact ⟨hok, List.mem_cons_of_mem _ hused⟩
  · intro k
    by_cases hk : id = k
    · exact .inr (hk ▸ hid)
    · refine .inl (.inl ?_)
      simp only [World.phase, OrderedMap.get_put_of_ne _ _ hk]
  · intro r hr
    rcases mem_puts.mp hr with hstray | ⟨k, p, hp, hr⟩ | hsweep
    · exact .inl (mem_puts.mpr (.inl hstray))
    · rw [OrderedMap.get_put] at hp
      split_ifs at hp with hk
      · cases hp
        simp only [Owner.puts, Owner.call, FlusherPc.puts, Option.toList_some, List.append_nil,
          List.mem_singleton] at hr
        subst hr
        exact .inr (.inr (.inr ⟨hid, List.mem_cons_self, rfl⟩))
      · exact .inl (puts_of_owner hp hr)
    · exact .inl (mem_puts.mpr (.inr (.inr hsweep)))

theorem put_mem_inFlight {node : String} {r : Job} (h : .put r ∈ w.inFlight node) :
    r ∈ w.puts := by
  rcases List.mem_append.mp h with h | h
  · obtain ⟨⟨id, o⟩, he, hr⟩ := List.mem_flatMap.mp h
    obtain ⟨q, hq, hqr⟩ := List.mem_map.mp hr
    cases hqr
    exact puts_of_owner (OrderedMap.mem_entries.mp (List.mem_filter.mp he).1) hq
  · obtain ⟨⟨sid, s⟩, he, hr⟩ := List.mem_flatMap.mp h
    refine puts_of_marking ⟨sid, s, OrderedMap.mem_entries.mp (List.mem_filter.mp he).1, ?_⟩
    have hcall := Option.mem_toList.mp hr
    simp only [Sweep.call] at hcall
    split at hcall
    · cases hcall
    · next job rest hpc =>
        cases hcall
        simp [Sweep.puts, hpc]
    · cases hcall
    · cases hcall
    · cases hcall

theorem evolves_crash (h : Consistent w) (node : String) :
    Evolves w { w with
      owners := w.owners.filterValues fun o => o.job.owner ≠ node
      sweeps := w.sweeps.filterValues fun s => s.node ≠ node
      strays := w.inFlight node ++ w.strays } := by
  have hmarking : ∀ r, (∃ sid s, (w.sweeps.filterValues fun s => s.node ≠ node).get sid = some s ∧
      r ∈ s.puts) → Marking w r := by
    rintro r ⟨sid, s, hs, hr⟩
    exact ⟨sid, s, (OrderedMap.get_filterValues.mp hs).1, hr⟩
  refine ⟨rfl, fun _ hid => hid, ?_, ?_, fun r hr => .inl ?_, fun r hr => .inl (hmarking r hr)⟩
  · intro id o ho
    exact h.ok id o (OrderedMap.get_filterValues.mp ho).1
  · intro id
    refine .inl ?_
    cases ho : (w.owners.filterValues fun o => o.job.owner ≠ node).get id with
    | none =>
        refine .inr (.inl ?_)
        simp only [World.phase, ho]
    | some o =>
        refine .inl ?_
        simp only [World.phase, ho, (OrderedMap.get_filterValues.mp ho).1]
  · rcases mem_puts.mp hr with hstray | ⟨id, o, ho, hr⟩ | hsweep
    · rcases List.mem_append.mp hstray with hlost | hold
      · exact put_mem_inFlight hlost
      · exact mem_puts.mpr (.inl hold)
    · exact puts_of_owner (OrderedMap.get_filterValues.mp ho).1 hr
    · exact puts_of_marking (hmarking r hsweep)

/-- Once no earlier PUT of the job is under way, a terminal record that is under
way closes it. -/
theorem Consistent.closed (h : Consistent w) {r : Job} (hr : r ∈ w.puts)
    (hterminal : r.state.terminal = true) (hno : NoEarlierPut w r.id) :
    Closed w r.id r.state := by
  refine ⟨fun q hq hid => ?_, h.ending r hr hterminal⟩
  rcases mem_puts.mp hq with hstray | ⟨id, o, ho, hqo⟩ | hsweep
  · exact h.agree q hq r hr hid (hno _ hstray q rfl hid) hterminal
  · obtain ⟨hqid, hlicense⟩ := (h.ok id o ho).1.licenses hqo
    have hending := h.ending r hr hterminal
    rw [← hid, hqid, phase_of_get ho] at hending
    rcases hlicense with ⟨hactive, -⟩ | hclosing
    · rw [hactive] at hending
      rcases hending with hp | hp <;> cases hp
    · rw [hclosing] at hending
      rcases hending with hp | hp
      · cases hp
      · exact Phase.closing.inj hp
  · have hclosed := h.marking q hsweep
    exact (hclosed.1 q hq rfl).trans (hclosed.1 r hr hid.symm).symm

end Moves

/-! ## One step -/

/-- An attempt of a PUT executes it or nothing. -/
theorem executes_put {w u v : World} {r : Job} {tries : ℕ} {a : Attempt}
    (hr : r ∈ w.puts)
    (hclosed : r.state.terminal = true → a = .answered → Closed w r.id r.state)
    (hv : v = { u with
      store := (attemptLate serve tries u.store w.strays (.put r) a).1.1 }) :
    Executes w u v := by
  rw [attemptLate_state, after] at hv
  by_cases ha : a = .answered
  · rw [if_pos ha] at hv
    exact .put hr (fun ht => hclosed ht ha) hv
  · rw [if_neg ha] at hv
    exact .nothing hv

theorem next_puts {s : Sweep} {now : ℤ} {pc : SweepPc} (h : s.next now = some pc) {r : Job}
    (hr : r ∈ ({ s with pc := pc } : Sweep).puts) : r.state = .failed := by
  unfold Sweep.next at h
  split at h
  · cases h
    cases hr
  · cases h
    unfold Sweep.visit at hr
    split at hr
    · split_ifs at hr
      · rw [List.mem_singleton.mp hr]
        rfl
      · cases hr
    · split_ifs at hr <;> cases hr
  · cases h

theorem mem_sweep_puts {s : Sweep} {r : Job} : r ∈ s.puts ↔ s.call = some (.put r) := by
  cases hpc : s.pc <;> simp [Sweep.puts, Sweep.call, hpc, eq_comm]

theorem attempted_puts {s : Sweep} {res : Option (Except Exc Reply)} {r : Job}
    (hr : r ∈ (s.attempted res).puts) : r ∈ s.puts := by
  cases res with
  | none => exact hr
  | some res =>
      have hnone : (s.attempted (some res)).puts = [] := by
        change ({ s with pc := s.answered res, tries := 0 } : Sweep).puts = []
        unfold Sweep.answered
        split <;> rfl
      rw [hnone] at hr
      cases hr

/-- An owner's PUT is tried; only its final one is of a terminal record. -/
theorem executes_ownerAttempt {w v : World} {id : String} {a : Attempt} (h : Consistent w)
    (hg : noStaleWriter w (.ownerAttempt id a)) (hs : step w (.ownerAttempt id a) = some v) :
    ∃ u, Evolves w u ∧ Executes w u v := by
  simp only [step, Option.bind_eq_bind, Option.bind_eq_some_iff, Option.some.injEq] at hs
  obtain ⟨o, ho, job, hcall, rfl⟩ := hs
  have hok := (h.ok id o ho).1
  have hjob : job ∈ o.puts := List.mem_append_left _ (Option.mem_toList.mpr hcall)
  have hm := hok.attempted hcall (attemptLate serve o.tries w.store w.strays (.put job) a).2
  refine ⟨_, evolves_owner h ho hm.ok hm.phase hm.puts fun r hr => ?_,
    executes_put (puts_of_owner ho hjob) (fun hterminal ha => ?_) rfl⟩
  · rcases mem_attemptLate hr with hr | hr
    · cases hr
      exact .inr hjob
    · exact .inl hr
  · -- Only the final PUT is of a terminal record.
    obtain ⟨hid, hlicense⟩ := hok.licenses hjob
    have hclosing : o.pc = .closing := by
      rcases hlicense with ⟨-, hrunning⟩ | hphase
      · rw [hterminal] at hrunning
        cases hrunning
      · cases hpc : o.pc <;> simp [Owner.phase, Owner.call, hpc] at hphase hcall ⊢
    exact h.closed (puts_of_owner ho hjob) hterminal (hid ▸ hg o ho hclosing ha)

/-- A PUT of a flush loop is tried, of a job that runs. -/
theorem executes_flushAttempt {w v : World} {id : String} {a : Attempt} (h : Consistent w)
    (hs : step w (.flushAttempt id a) = some v) : ∃ u, Evolves w u ∧ Executes w u v := by
  simp only [step, Option.bind_eq_bind, Option.bind_eq_some_iff] at hs
  obtain ⟨o, ho, hs⟩ := hs
  split at hs
  · next record tries hf =>
      cases hs
      have hok := (h.ok id o ho).1
      have hrecord : record ∈ o.puts :=
        List.mem_append_right _ (mem_flusher_puts.mpr ⟨tries, hf⟩)
      have hm := hok.flushAttempted hf
        (attemptLate serve tries w.store w.strays (.put record) a).2
      refine ⟨_, evolves_owner h ho hm.ok hm.phase hm.puts fun r hr => ?_,
        executes_put (puts_of_owner ho hrecord) (fun hterminal _ => ?_) rfl⟩
      · rcases mem_attemptLate hr with hr | hr
        · cases hr
          exact .inr hrecord
        · exact .inl hr
      · rw [(hok.flushed record tries hf).2] at hterminal
        cases hterminal
  · cases hs
  · cases hs

/-- A call of a sweep is tried. -/
theorem executes_sweepAttempt {w v : World} {sid : ℕ} {a : Attempt} (h : Consistent w)
    (hs : step w (.sweepAttempt sid a) = some v) : ∃ u, Evolves w u ∧ Executes w u v := by
  simp only [step, Option.bind_eq_bind, Option.bind_eq_some_iff, Option.some.injEq] at hs
  obtain ⟨s, hget, q, hcall, rfl⟩ := hs
  have hputs : ∀ r ∈ (s.attempted
      (attemptLate serve s.tries w.store w.strays q a).2).puts, Marking w r ∨ Markable w r :=
    fun r hr => .inl ⟨sid, s, hget, attempted_puts hr⟩
  have hstrays : ∀ r, .put r ∈ (attemptLate serve s.tries w.store w.strays q a).1.2 →
      .put r ∈ w.strays ∨ Marking w r := by
    intro r hr
    rcases mem_attemptLate hr with rfl | hr
    · exact .inr ⟨sid, s, hget, mem_sweep_puts.mpr hcall⟩
    · exact .inl hr
  refine ⟨_, evolves_sweep h sid hputs hstrays, ?_⟩
  cases q with
  | put r =>
      have hmarking : Marking w r := ⟨sid, s, hget, mem_sweep_puts.mpr hcall⟩
      have hclosed := h.marking r hmarking
      have hstate := hclosed.1 r (puts_of_marking hmarking) rfl
      exact executes_put (puts_of_marking hmarking) (fun _ _ => hstate ▸ hclosed) rfl
  | delete id =>
      rw [attemptLate_state, after]
      split_ifs
      · exact .erase rfl
      · exact .nothing rfl
  | list =>
      rw [attemptLate_state, after]
      split_ifs
      · exact .nothing rfl
      · exact .nothing rfl

/-- etcd executes a late request. -/
theorem executes_land {w v : World} {k : ℕ} (h : Consistent w)
    (hg : noStaleWriter w (.land k)) (hs : step w (.land k) = some v) :
    ∃ u, Evolves w u ∧ Executes w u v := by
  simp only [step, Option.bind_eq_bind, Option.bind_eq_some_iff, Option.some.injEq] at hs
  obtain ⟨q, hq, rfl⟩ := hs
  refine ⟨{ w with strays := w.strays.eraseIdx k },
    evolves_strays h fun p hp => List.mem_of_mem_eraseIdx hp, ?_⟩
  cases q with
  | put r =>
      have hr : r ∈ w.puts := mem_puts.mpr (.inl (List.mem_of_getElem? hq))
      exact .put hr (fun ht => h.closed hr ht (hg _ hq r rfl ht)) rfl
  | delete id => exact .erase rfl
  | list => exact .nothing rfl

/-- A step of a consistent world that meets the condition: the parties move, and
etcd executes at most one request, which was under way. -/
theorem step_executes {w v : World} {a : Act} (h : Consistent w) (hg : noStaleWriter w a)
    (hs : step w a = some v) : ∃ u, Evolves w u ∧ Executes w u v := by
  cases a with
  | create id node type params isLeader now =>
      simp only [step] at hs
      split_ifs at hs with hcond
      cases hs
      exact ⟨_, evolves_create h hcond.2.2, .nothing rfl⟩
  | owner id l =>
      simp only [step, Option.bind_eq_bind, Option.bind_eq_some_iff, Option.some.injEq] at hs
      obtain ⟨o, ho, ⟨o', abandoned⟩, hact, rfl⟩ := hs
      have hm := (h.ok id o ho).1.act hact
      refine ⟨_, evolves_owner h ho hm.ok hm.phase hm.puts fun r hr => ?_, .nothing rfl⟩
      rcases List.mem_append.mp hr with hr | hr
      · obtain ⟨q, hq, hqr⟩ := List.mem_map.mp hr
        cases hqr
        exact .inr (hm.abandoned r hq)
      · exact .inl hr
  | ownerAttempt id a => exact executes_ownerAttempt h hg hs
  | flushAttempt id a => exact executes_flushAttempt h hs
  | startSweep sid node kind now =>
      simp only [step] at hs
      split_ifs at hs with hnone
      cases hs
      exact ⟨_, evolves_sweep h sid (fun r hr => by cases hr) fun r hr => .inl hr, .nothing rfl⟩
  | sweepNext sid now =>
      simp only [step, Option.bind_eq_bind, Option.bind_eq_some_iff, Option.some.injEq] at hs
      obtain ⟨s, hget, pc, hpc, rfl⟩ := hs
      refine ⟨_, evolves_sweep h sid (fun r hr => .inr ?_) fun r hr => .inl hr, .nothing rfl⟩
      exact ⟨next_puts hpc hr, hg s hget pc hpc r hr⟩
  | sweepAttempt sid a => exact executes_sweepAttempt h hs
  | crash node =>
      cases hs
      exact ⟨_, evolves_crash h node, .nothing rfl⟩
  | land k => exact executes_land h hg hs
  | lose k =>
      cases hs
      exact ⟨{ w with strays := w.strays.eraseIdx k },
        evolves_strays h fun p hp => List.mem_of_mem_eraseIdx hp, .nothing rfl⟩

theorem consistent_step {w v : World} {a : Act} (h : Consistent w) (hg : noStaleWriter w a)
    (hs : step w a = some v) : Consistent v := by
  obtain ⟨u, hu, hv⟩ := step_executes h hg hs
  have hcu := h.evolves hu
  cases hv with
  | nothing heq => exact heq ▸ hcu
  | put hr hclosed heq =>
      subst heq
      have hused := h.used _ hr
      refine hcu.put (hu.used _ hused) fun hterminal => ?_
      refine (hclosed hterminal).evolves hu hused fun hstill habandoned => ?_
      exact habandoned.2 _ hr rfl
  | erase heq => exact heq ▸ hcu.erase _

theorem settled_step {w v : World} {a : Act} {id : String} {s : JobState} (h : Consistent w)
    (hg : noStaleWriter w a) (hs : s.terminal = true) (hset : Settled id s w)
    (hstep : step w a = some v) : Settled id s v := by
  obtain ⟨u, hu, hv⟩ := step_executes h hg hstep
  exact hset.executes (hset.evolves hs hu) hv

theorem consistent_initial {w : World} (h : Initial w) : Consistent w := by
  have hputs : ∀ r, r ∉ w.puts := by
    intro r hr
    rcases mem_puts.mp hr with hstray | ⟨id, o, ho, -⟩ | ⟨sid, s, hs, -⟩
    · rw [h.strays] at hstray
      cases hstray
    · rw [h.owners] at ho
      cases ho
    · rw [h.sweeps] at hs
      cases hs
  have hgone : ∀ id, w.phase id = .gone := by
    intro id
    simp only [World.phase, h.owners, OrderedMap.get_empty]
  refine ⟨?_, fun id j hj => (h.keyed id j hj).2, fun r hr => absurd hr (hputs r),
    fun r hr => absurd hr (hputs r), fun r hr => absurd hr (hputs r), ?_, ?_⟩
  · intro id o ho
    rw [h.owners] at ho
    cases ho
  · intro r hr
    exact absurd (puts_of_marking hr) (hputs r)
  · intro id j _ _
    exact ⟨fun r hr => absurd hr (hputs r), .inl (hgone id)⟩

/-! ## Runs -/

/-- In a run whose steps all meet the condition, a job whose stored record is
done, failed or cancelled at one time has no record with another state at any
later time. -/
theorem terminal_kept {w₀ u v : World} {bs cs : List Act} (h₀ : Initial w₀)
    (hg : Keeps step noStaleWriter w₀ (bs ++ cs)) (hu : run step w₀ bs = some u)
    (hv : run step u cs = some v) {id : String} {j k : Job} (hj : u.store.get id = some j)
    (hterminal : j.state.terminal = true) (hk : v.store.get id = some k) :
    k.state = j.state := by
  have hcu : Consistent u :=
    run_guarded (fun _ _ _ => consistent_step) (consistent_initial h₀) (keeps_of_append hg) hu
  have hsu : Settled id j.state u := by
    refine ⟨hcu.stored id j hj, hcu.terminal id j hj hterminal, fun k hk => ?_⟩
    cases hj.symm.trans hk
    rfl
  have hboth : Consistent v ∧ Settled id j.state v := by
    refine run_guarded (I := fun w => Consistent w ∧ Settled id j.state w) ?_ ⟨hcu, hsu⟩
      (keeps_append hg hu) hv
    rintro w a w' ⟨hc, hs⟩ hga hstep
    exact ⟨consistent_step hc hga hstep, settled_step hc hga hterminal hs hstep⟩
  exact hboth.2.stored k hk

/-! ## One job -/

instance (w : World) (id : String) : Decidable (Abandoned w id) :=
  inferInstanceAs (Decidable (w.phase id = .gone ∧ ∀ r ∈ w.puts, r.id = id → r.state = .failed))

instance (w : World) (id : String) : Decidable (NoEarlierPut w id) :=
  inferInstanceAs (Decidable (∀ q ∈ w.strays, ∀ r ∈ Request.record q, r.id = id →
    r.state.terminal = true))

instance (w : World) (id : String) : Decidable (StillMarkable w id) :=
  inferInstanceAs (Decidable (∃ j ∈ w.store.get id, j.state = .running ∨ j.state = .failed))

instance decidableStale (w : World) : ∀ a, Decidable (noStaleWriter w a)
  | .sweepNext sid now => inferInstanceAs (Decidable (∀ s ∈ w.sweeps.get sid, ∀ pc ∈ s.next now,
      ∀ r ∈ ({ s with pc := pc } : Sweep).puts, Abandoned w r.id ∧ StillMarkable w r.id))
  | .ownerAttempt id a => inferInstanceAs (Decidable (∀ o ∈ w.owners.get id, o.pc = .closing →
      a = .answered → NoEarlierPut w id))
  | .land k => inferInstanceAs (Decidable (∀ q ∈ w.strays[k]?, ∀ r ∈ Request.record q,
      r.state.terminal = true → NoEarlierPut w r.id))
  | .create .. | .owner .. | .flushAttempt .. | .startSweep .. | .sweepAttempt .. | .crash _
  | .lose _ => .isTrue trivial

def noJobs : World := ⟨.empty, .empty, .empty, [], [], ["create-backup"]⟩

theorem initial_noJobs : Initial noJobs :=
  ⟨fun id job h => (by cases h), rfl, rfl, rfl⟩

/-- A job is created on node-1 and its worker starts. -/
def startedRun : List Act :=
  [.create "job" "node-1" "create-backup" [] true 0, .ownerAttempt "job" .answered,
    .owner "job" (.begin (nanoseconds 1)), .ownerAttempt "job" .answered]

/-- A sweep of node-2 that comes to one job and may write it. -/
def sweepRun (now : ℤ) : List Act :=
  [.startSweep 0 "node-2" (.stuckRunning 60) now, .sweepAttempt 0 .answered, .sweepNext 0 now]

/-- The worker ends, and its last flush never arrives. -/
def completedRun : List Act :=
  startedRun ++ [Act.owner "job" (.tick (nanoseconds 3)), .owner "job" .complete, .lose 0,
    .owner "job" (.close (nanoseconds 4)), .ownerAttempt "job" .answered]

theorem terminal_kept_completed :
    ∃ u v j k, run step noJobs completedRun = some u ∧ run step u (sweepRun (nanoseconds 90)) = some v ∧
      u.store.get "job" = some j ∧ v.store.get "job" = some k ∧ k.state = j.state := by
  have hrun : (run step noJobs completedRun).any (fun u =>
      (u.store.get "job").any (fun j => j.state.terminal) &&
        (run step u (sweepRun (nanoseconds 90))).any fun v => (v.store.get "job").isSome) = true := by
    decide +kernel
  have hkeeps : Keeps step noStaleWriter noJobs (completedRun ++ sweepRun (nanoseconds 90)) := by
    decide +kernel
  obtain ⟨u, hu, htest⟩ := (Option.any_eq_true _ _).mp hrun
  simp only [Bool.and_eq_true] at htest
  obtain ⟨j, hj, hterminal⟩ := (Option.any_eq_true _ _).mp htest.1
  obtain ⟨v, hv, htest⟩ := (Option.any_eq_true _ _).mp htest.2
  obtain ⟨k, hk⟩ := Option.isSome_iff_exists.mp htest
  exact ⟨u, v, j, k, hu, hv, hj, hk, terminal_kept initial_noJobs hkeeps hu hv hj hterminal hk⟩

/-- The flusher of a job cannot reach etcd for more than the heartbeat timeout,
and a sweep marks the job as failed. -/
def outageRun : List Act :=
  startedRun ++ [Act.owner "job" (.tick (nanoseconds 3)),
    .flushAttempt "job" (.dropped "connect timeout")] ++ sweepRun (nanoseconds 62) ++
    [Act.sweepAttempt 0 .answered]

/-- The next attempt of the same flush is answered: the failed job runs again. -/
theorem failed_job_runs_again :
    ∃ u v j k, run step noJobs outageRun = some u ∧
      run step u [.flushAttempt "job" .answered] = some v ∧ u.store.get "job" = some j ∧
      v.store.get "job" = some k ∧ j.state = .failed ∧ k.state = .running := by
  have hrun : (run step noJobs outageRun).any (fun u =>
      (u.store.get "job").any (fun j => j.state = .failed) &&
        (run step u [.flushAttempt "job" .answered]).any fun v =>
          (v.store.get "job").any fun k => k.state = .running) = true := by
    decide +kernel
  obtain ⟨u, hu, htest⟩ := (Option.any_eq_true _ _).mp hrun
  simp only [Bool.and_eq_true] at htest
  obtain ⟨j, hj, hfailed⟩ := (Option.any_eq_true _ _).mp htest.1
  obtain ⟨v, hv, htest⟩ := (Option.any_eq_true _ _).mp htest.2
  obtain ⟨k, hk, hrunning⟩ := (Option.any_eq_true _ _).mp htest
  exact ⟨u, v, j, k, hu, hv, hj, hk, of_decide_eq_true hfailed, of_decide_eq_true hrunning⟩

end MilvusOnprem.Jobs
