import MilvusOnprem.JobSteps

/-!
# Jobs of dead owners

A sweep lists the jobs once and then goes through its list. A dead job is not
written any more but by sweeps; so once it is terminal it stays terminal, and a
sweep that succeeds makes it so if its stored record is running and without a
heartbeat since the cutoff. A pending record is not looked at.

All parties read one clock, and the time of the last write of a job is kept
beside the world: the last time at which etcd executed a PUT of a record of the
job that is not terminal. No stored heartbeat is later.
-/
namespace MilvusOnprem.Jobs

open EtcdClient GuardedRuns

/-! ## One clock -/

structure Timed where
  world : World
  clock : ℤ
  written : String → ℤ

/-- A step at a time that is not earlier than that of the step before. -/
def Timed.step (t : Timed) (x : ℤ × Act) : Option Timed :=
  if t.clock ≤ x.1 ∧ ∀ now ∈ x.2.reading, now = x.1 then
    (Jobs.step t.world x.2).map fun v =>
      ⟨v, x.1,
        match executedPut t.world x.2 with
        | some r =>
            if r.state.terminal then t.written else Function.update t.written r.id x.1
        | none => t.written⟩
  else none

/-- The stored jobs were written by the same code and clock. -/
structure Timed.Initial (t : Timed) : Prop where
  world : Jobs.Initial t.world
  ended : ∀ id j, t.world.store.get id = some j → Ended j
  beats : ∀ id j, t.world.store.get id = some j → ∀ h, j.lastHeartbeat = some h → h ≤ t.clock
  written : ∀ id j, t.world.store.get id = some j → j.state.terminal = false →
    ∀ h, j.lastHeartbeat = some h → h ≤ t.written id

/-! ## A sweep that succeeds -/

/-- No call of the sweep gives up, and its daemon lives. -/
def succeeds (sid : ℕ) (w : World) : Act → Bool
  | .sweepAttempt k a => k ≠ sid || (w.sweeps.get sid).all fun s => !a.givesUp s.tries
  | .crash node => (w.sweeps.get sid).all fun s => s.node ≠ node
  | _ => true

/-- The stored record of the job is one that the sweep marks, or it is terminal. -/
def Due (w : World) (id : String) (cutoff : ℤ) : Prop :=
  ∀ j, w.store.get id = some j →
    j.state ≠ .pending ∧ (j.state = .running → j.stale cutoff = true)

/-- The sweep has still to mark the job. -/
def Sweep.Awaits (s : Sweep) (id : String) : Prop :=
  match s.pc with
  | .listing => True
  | .todo jobs => ∃ job ∈ jobs, job.id = id ∧ job.state = .running ∧ job.stale s.cutoff = true
  | .marking job rest => job.id = id ∨
      ∃ job ∈ rest, job.id = id ∧ job.state = .running ∧ job.stale s.cutoff = true
  | .deleting _ _ | .ended => False

/-- The sweep never marks the job. -/
def Sweep.Skips (s : Sweep) (id : String) : Prop :=
  match s.pc with
  | .listing | .ended => True
  | .todo jobs => ∀ job ∈ jobs, job.id = id → job.state = .running → job.stale s.cutoff = false
  | .marking job rest => job.id ≠ id ∧
      ∀ job ∈ rest, job.id = id → job.state = .running → job.stale s.cutoff = false
  | .deleting _ _ => False

theorem due_step {w v : World} {a : Act} {id : String} {cutoff : ℤ} (hdead : Dead w id)
    (hdue : Due w id cutoff) (hs : step w a = some v) : Due v id cutoff := by
  intro j hj
  have hstores := store_step hs
  cases hput : executedPut w a with
  | none =>
      rw [hput] at hstores
      cases hstores with
      | nothing hsame => exact hdue j (hsame ▸ hj)
      | erase herase =>
          rw [herase, OrderedMap.get_erase] at hj
          split_ifs at hj
          exact hdue j hj
  | some r =>
      rw [hput] at hstores
      cases hstores with
      | put hr hstore =>
          rw [hstore, OrderedMap.get_put] at hj
          split_ifs at hj with hid
          · cases hj
            have hterminal := hdead.2 _ hr hid
            constructor
            · intro hstate
              rw [hstate] at hterminal
              cases hterminal
            · intro hstate
              rw [hstate] at hterminal
              cases hterminal
          · exact hdue j hj

/-- Between its calls a sweep marks the job, or has it still on its list. -/
theorem Sweep.Awaits.next {s : Sweep} {id : String} (h : s.Awaits id) {timeoutS : ℤ}
    (hkind : s.kind = .stuckRunning timeoutS) {now : ℤ} {pc : SweepPc} (hnext : s.next now = some pc) :
    ({ s with pc := pc, tries := 0 } : Sweep).Awaits id := by
  unfold Sweep.next at hnext
  split at hnext
  · next hpc =>
      simp [Sweep.Awaits, hpc] at h
  · next job rest hpc =>
      cases hnext
      simp only [Sweep.Awaits, hpc] at h
      obtain ⟨due, hmem, hid, hrunning, hstale⟩ := h
      simp only [Sweep.visit, hkind]
      rcases List.mem_cons.mp hmem with rfl | hmem
      · rw [if_pos ⟨hrunning, hstale⟩]
        exact .inl hid
      · split_ifs
        · exact .inr ⟨due, hmem, hid, hrunning, hstale⟩
        · exact ⟨due, hmem, hid, hrunning, hstale⟩
  · cases hnext

theorem Sweep.Skips.next {s : Sweep} {id : String} (h : s.Skips id) {timeoutS : ℤ}
    (hkind : s.kind = .stuckRunning timeoutS) {now : ℤ} {pc : SweepPc} (hnext : s.next now = some pc) :
    ({ s with pc := pc, tries := 0 } : Sweep).Skips id := by
  unfold Sweep.next at hnext
  split at hnext
  · cases hnext
    trivial
  · next job rest hpc =>
      cases hnext
      simp only [Sweep.Skips, hpc, List.forall_mem_cons] at h
      simp only [Sweep.visit, hkind]
      split_ifs with hmarks
      · refine ⟨fun hid => ?_, h.2⟩
        have hfresh := h.1 hid hmarks.1
        rw [hmarks.2] at hfresh
        cases hfresh
      · exact h.2
  · cases hnext

/-- An attempt is repeated, or it ends a call that is answered. -/
theorem attempted_cases {w : World} {s : Sweep} {q : Request} {a : Attempt}
    (hcall : s.call = some q) (hgoes : a.givesUp s.tries = false) :
    (∃ tries, s.attempted (attemptLate serve s.tries w.store w.strays q a).2 =
        { s with tries := tries }) ∨
      a = .answered ∧
        ((s.pc = .listing ∧ s.attempted (attemptLate serve s.tries w.store w.strays q a).2 =
            { s with pc := .todo (sortedJobs (w.store.entries.map Prod.snd)), tries := 0 }) ∨
          (∃ job rest, s.pc = .marking job rest ∧
            s.attempted (attemptLate serve s.tries w.store w.strays q a).2 =
              { s with pc := .todo rest, tries := 0 }) ∨
          ∃ job rest, s.pc = .deleting job rest) := by
  cases hres : (attemptLate serve s.tries w.store w.strays q a).2 with
  | none => exact .inl ⟨s.tries + 1, rfl⟩
  | some res =>
      rcases attemptLate_returns hres with rfl | hgives
      · refine .inr ⟨rfl, ?_⟩
        unfold Sweep.call at hcall
        split at hcall
        · next hpc =>
            cases hcall
            cases hres
            refine .inl ⟨hpc, ?_⟩
            simp [Sweep.attempted, Sweep.answered, hpc, serve, Except.mapError]
        · next job rest hpc =>
            refine .inr (.inl ⟨job, rest, hpc, ?_⟩)
            simp [Sweep.attempted, Sweep.answered, hpc]
        · next job rest hpc => exact .inr (.inr ⟨job, rest, hpc⟩)
        · cases hcall
        · cases hcall
      · rw [hgoes] at hgives
        cases hgives

/-- Whatever is stored is listed. -/
theorem mem_sortedJobs {w : World} {j : Job} :
    j ∈ sortedJobs (w.store.entries.map Prod.snd) ↔ ∃ id, w.store.get id = some j := by
  rw [sortedJobs, List.mem_insertionSort, List.mem_map]
  constructor
  · rintro ⟨e, he, rfl⟩
    exact ⟨e.1, OrderedMap.mem_entries.mp he⟩
  · rintro ⟨id, hid⟩
    exact ⟨(id, j), OrderedMap.mem_entries.mpr hid, rfl⟩

/-- The sweep, as long as it goes on. -/
structure Runs (w : World) (sid : ℕ) (cutoff : ℤ) (s : Sweep) : Prop where
  got : w.sweeps.get sid = some s
  kind : ∃ timeoutS, s.kind = .stuckRunning timeoutS
  cutoff : s.cutoff = cutoff

theorem runs_step {w v : World} {a : Act} {sid : ℕ} {cutoff : ℤ} {s : Sweep}
    (h : Runs w sid cutoff s) (hg : succeeds sid w a = true) (hs : step w a = some v) :
    ∃ s', Runs v sid cutoff s' ∧ (s' = s ∨ s.Step w a sid s') := by
  have hlives : a ≠ .crash s.node := by
    rintro rfl
    simp [succeeds, h.got] at hg
  obtain ⟨s', hget, hmove⟩ := sweep_kept hs h.got hlives
  refine ⟨s', ⟨hget, ?_, ?_⟩, hmove⟩
  · rcases hmove with rfl | hmove
    · exact h.kind
    · cases hmove with
      | next hnext => exact h.kind
      | attempt a hcall =>
          cases (attemptLate serve s.tries w.store w.strays _ a).2 <;> exact h.kind
  · rcases hmove with rfl | hmove
    · exact h.cutoff
    · cases hmove with
      | next hnext => exact h.cutoff
      | attempt a hcall =>
          cases (attemptLate serve s.tries w.store w.strays _ a).2 <;> exact h.cutoff

theorem givesUp_of_succeeds {w : World} {sid : ℕ} {a : Attempt} {s : Sweep}
    (hget : w.sweeps.get sid = some s) (hg : succeeds sid w (.sweepAttempt sid a) = true) :
    a.givesUp s.tries = false := by
  simpa [succeeds, hget] using hg

/-- A sweep that awaits a dead job still awaits it after a step, or has finished
it. -/
theorem awaits_step {w v : World} {a : Act} {sid : ℕ} {id : String} {cutoff : ℤ} {s s' : Sweep}
    (hsound : Sound w) (hkeyed : ∀ id j, w.store.get id = some j → j.id = id) (hdead : Dead w id)
    (hdue : Due w id cutoff) (hruns : Runs w sid cutoff s) (h : s.Awaits id)
    (hg : succeeds sid w a = true) (hs : step w a = some v) (hmove : s.Step w a sid s') :
    Finished v id ∨ s'.Awaits id := by
  cases hmove with
  | next hnext =>
      obtain ⟨timeoutS, hkind⟩ := hruns.kind
      exact .inr (h.next hkind hnext)
  | @attempt _ q a hcall =>
      rcases attempted_cases hcall (givesUp_of_succeeds hruns.got hg) with
        ⟨tries, hretry⟩ | ⟨rfl, ⟨hpc, hlisted⟩ | ⟨job, rest, hpc, hmarked⟩ | ⟨job, rest, hpc⟩⟩
      · rw [hretry]
        exact .inr h
      · rw [hlisted]
        cases hstored : w.store.get id with
        | none =>
            refine .inl (finished_step hsound hdead (fun j hj => ?_) hs)
            rw [hstored] at hj
            cases hj
        | some j =>
            by_cases hterminal : j.state.terminal = true
            · refine .inl (finished_step hsound hdead (fun i hi => ?_) hs)
              cases hstored.symm.trans hi
              exact ⟨hterminal, hsound.stored id j hstored hterminal⟩
            · obtain ⟨hpending, hstale⟩ := hdue j hstored
              have hrunning : j.state = .running := by
                cases hstate : j.state <;> simp_all [JobState.terminal]
              refine .inr ⟨j, mem_sortedJobs.mpr ⟨id, hstored⟩, hkeyed id j hstored, hrunning, ?_⟩
              rw [hruns.cutoff]
              exact hstale hrunning
      · rw [hmarked]
        simp only [Sweep.Awaits, hpc] at h
        rcases h with hid | hrest
        · -- the mark is executed
          refine .inl fun j hj => ?_
          have hputs : job ∈ w.puts :=
            puts_of_marking ⟨sid, s, hruns.got, by simp [Sweep.puts, hpc]⟩
          have hstores := store_step hs
          rw [show executedPut w (.sweepAttempt sid .answered) = some job by
            simp [executedPut, hruns.got, Sweep.puts, hpc]] at hstores
          cases hstores with
          | put hr hstore =>
              rw [hstore, ← hid, OrderedMap.get_put_self] at hj
              cases hj
              have hterminal := hdead.2 _ hputs hid
              exact ⟨hterminal, hsound.puts hputs hterminal⟩
        · exact .inr hrest
      · simp [Sweep.Awaits, hpc] at h

/-- The sweep gets its list in this step. -/
def lists (sid : ℕ) (w : World) : Act → Bool
  | .sweepAttempt k a => k = sid && a = .answered &&
      (w.sweeps.get sid).any fun s => decide (s.pc = .listing)
  | _ => false

/-- Where the sweep lists the job, its record has a heartbeat since the cutoff. -/
def listsBeating (sid : ℕ) (id : String) (cutoff : ℤ) (w : World) (a : Act) : Prop :=
  lists sid w a = true → ∀ j ∈ w.store.get id, ∃ t ∈ j.lastHeartbeat, cutoff ≤ t

instance (sid : ℕ) (id : String) (cutoff : ℤ) (w : World) (a : Act) :
    Decidable (listsBeating sid id cutoff w a) :=
  inferInstanceAs (Decidable (lists sid w a = true → ∀ j ∈ w.store.get id,
    ∃ t ∈ j.lastHeartbeat, cutoff ≤ t))

/-- A sweep that does not come to mark a job does not come to it in the next step,
if the job has a heartbeat where it is listed. -/
theorem skips_step {w : World} {a : Act} {sid : ℕ} {id : String} {cutoff : ℤ} {s s' : Sweep}
    (hkeyed : ∀ id j, w.store.get id = some j → j.id = id) (hruns : Runs w sid cutoff s)
    (h : s.Skips id) (hg : succeeds sid w a = true) (hmove : s.Step w a sid s')
    (hlisted : listsBeating sid id cutoff w a) : s'.Skips id := by
  cases hmove with
  | next hnext =>
      obtain ⟨timeoutS, hkind⟩ := hruns.kind
      exact h.next hkind hnext
  | @attempt _ q a hcall =>
      rcases attempted_cases hcall (givesUp_of_succeeds hruns.got hg) with
        ⟨tries, hretry⟩ | ⟨rfl, ⟨hpc, hlist⟩ | ⟨job, rest, hpc, hmarked⟩ | ⟨job, rest, hpc⟩⟩
      · rw [hretry]
        exact h
      · rw [hlist]
        intro j hj hid hrunning
        obtain ⟨k, hk⟩ := mem_sortedJobs.mp hj
        have hown : k = id := (hkeyed k j hk).symm.trans hid
        obtain ⟨t, ht, hcutoff⟩ := hlisted (by simp [lists, hruns.got, hpc]) j (hown ▸ hk)
        rw [hruns.cutoff, Job.stale, ht]
        simpa using hcutoff
      · rw [hmarked]
        simp only [Sweep.Skips, hpc] at h
        exact h.2
      · simp [Sweep.Skips, hpc] at h

/-! ## Timed runs -/

structure Timed.Inv (t : Timed) : Prop where
  holds : t.world.Holds fun id b => id ∈ t.world.usedIds ∧ ∀ h, b = some h → h ≤ t.clock
  sound : Sound t.world
  written : ∀ id j, t.world.store.get id = some j → j.state.terminal = false →
    ∀ h, j.lastHeartbeat = some h → h ≤ t.written id

theorem Timed.Initial.inv {t : Timed} (h : t.Initial) : t.Inv := by
  refine ⟨⟨fun id j hj => ?_, fun r hr => ?_, fun id o ho => ?_, fun sid s hs => ?_⟩,
    ⟨fun id o ho => ?_, fun r hr => ?_, fun sid s hs => ?_, h.ended⟩, h.written⟩
  · obtain ⟨hid, hused⟩ := h.world.keyed id j hj
    exact ⟨hid, hid ▸ hused, h.beats id j hj⟩
  · rw [h.world.strays] at hr
    cases hr
  · rw [h.world.owners] at ho
    cases ho
  · rw [h.world.sweeps] at hs
    cases hs
  · rw [h.world.owners] at ho
    cases ho
  · rw [h.world.strays] at hr
    cases hr
  · rw [h.world.sweeps] at hs
    cases hs

theorem Timed.step_cases {t u : Timed} {x : ℤ × Act} (h : t.step x = some u) :
    t.clock ≤ x.1 ∧ (∀ now ∈ x.2.reading, now = x.1) ∧ Jobs.step t.world x.2 = some u.world ∧
      u.clock = x.1 ∧ u.written = match executedPut t.world x.2 with
        | some r => if r.state.terminal then t.written else Function.update t.written r.id x.1
        | none => t.written := by
  unfold Timed.step at h
  split_ifs at h with hcond
  obtain ⟨v, hv, rfl⟩ := Option.map_eq_some_iff.mp h
  exact ⟨hcond.1, hcond.2, hv, rfl, rfl⟩

theorem Timed.inv_step {t u : Timed} {x : ℤ × Act} (h : t.Inv) (hs : t.step x = some u) :
    u.Inv := by
  obtain ⟨hclock, hreading, hstep, hnow, hwritten⟩ := Timed.step_cases hs
  refine ⟨?_, sound_step h.sound hstep, fun id j hj hrunning b hb => ?_⟩
  · have hlater := h.holds.mono fun id b hb =>
      (⟨used_step hstep hb.1, fun c hc => (hb.2 c hc).trans (hclock.trans hnow.ge)⟩ :
        id ∈ u.world.usedIds ∧ ∀ c, b = some c → c ≤ u.clock)
    refine holds_step (fun k o ho => (h.sound.owners k o ho).ok) hlater (fun now hmem id b hb => ⟨hb.1, fun c hc => ?_⟩)
      (fun id hid _ => ⟨hid, fun c hc => by cases hc⟩) hstep
    rw [← Option.some.inj hc, hreading now hmem, hnow]
  · have hstores := store_step hstep
    cases hput : executedPut t.world x.2 with
    | none =>
        rw [hput] at hstores hwritten
        rw [hwritten]
        cases hstores with
        | nothing hsame => exact h.written id j (hsame ▸ hj) hrunning b hb
        | erase herase =>
            rw [herase, OrderedMap.get_erase] at hj
            split_ifs at hj
            exact h.written id j hj hrunning b hb
    | some r =>
        rw [hput] at hstores hwritten
        cases hstores with
        | put hr hstore =>
            rw [hstore, OrderedMap.get_put] at hj
            split_ifs at hj with hid
            · cases hj
              rw [hwritten]
              simp only [hrunning, Bool.false_eq_true, if_false, ← hid, Function.update_self]
              exact ((h.holds.puts _ hr).2 b hb).trans hclock
            · have hother : u.written id = t.written id := by
                rw [hwritten]
                dsimp only
                split_ifs
                · rfl
                · exact Function.update_of_ne (Ne.symm hid) _ _
              rw [hother]
              exact h.written id j hj hrunning b hb

/-- While the sweep goes on, a dead job is finished, or the sweep awaits it. -/
structure Swept (sid : ℕ) (cutoff : ℤ) (id : String) (t : Timed) : Prop where
  inv : t.Inv
  used : id ∈ t.world.usedIds
  dead : Dead t.world id
  due : Due t.world id cutoff
  sweep : ∃ s, Runs t.world sid cutoff s ∧ (Finished t.world id ∨ s.Awaits id)

theorem swept_step {sid : ℕ} {cutoff : ℤ} {id : String} {t u : Timed} {x : ℤ × Act}
    (h : Swept sid cutoff id t) (hg : succeeds sid t.world x.2 = true) (hs : t.step x = some u) :
    Swept sid cutoff id u := by
  have hstep := (Timed.step_cases hs).2.2.1
  obtain ⟨s, hruns, hstate⟩ := h.sweep
  obtain ⟨s', hruns', hmove⟩ := runs_step hruns hg hstep
  refine ⟨Timed.inv_step h.inv hs, used_step hstep h.used,
    dead_step h.inv.sound h.used h.dead hstep, due_step h.dead h.due hstep, s', hruns', ?_⟩
  rcases hstate with hfinished | hawaits
  · exact .inl (finished_step h.inv.sound h.dead hfinished hstep)
  · rcases hmove with rfl | hmove
    · exact .inr hawaits
    · exact awaits_step h.inv.sound (fun k j hj => (h.inv.holds.stored k j hj).1) h.dead h.due
        hruns hawaits hg hstep hmove

/-- The sweep does not come to mark the job. -/
structure Spared (sid : ℕ) (cutoff : ℤ) (id : String) (t : Timed) : Prop where
  inv : t.Inv
  sweep : ∃ s, Runs t.world sid cutoff s ∧ s.Skips id

theorem spared_step {sid : ℕ} {cutoff : ℤ} {id : String} {t u : Timed} {x : ℤ × Act}
    (h : Spared sid cutoff id t) (hg : succeeds sid t.world x.2 = true)
    (hlisted : listsBeating sid id cutoff t.world x.2) (hs : t.step x = some u) :
    Spared sid cutoff id u := by
  have hstep := (Timed.step_cases hs).2.2.1
  obtain ⟨s, hruns, hskips⟩ := h.sweep
  obtain ⟨s', hruns', hmove⟩ := runs_step hruns hg hstep
  refine ⟨Timed.inv_step h.inv hs, s', hruns', ?_⟩
  rcases hmove with rfl | hmove
  · exact hskips
  · exact skips_step (fun k j hj => (h.inv.holds.stored k j hj).1) hruns hskips hg hmove hlisted

theorem Spared.puts {sid : ℕ} {cutoff : ℤ} {id : String} {t : Timed} (h : Spared sid cutoff id t)
    {s : Sweep} (hget : t.world.sweeps.get sid = some s) : ∀ r ∈ s.puts, r.id ≠ id := by
  obtain ⟨s', hruns, hskips⟩ := h.sweep
  cases hruns.got.symm.trans hget
  intro r hr
  unfold Sweep.puts at hr
  split at hr
  · next job rest hpc =>
      simp only [Sweep.Skips, hpc] at hskips
      rw [List.mem_singleton.mp hr]
      exact hskips.1
  · cases hr

/-- The sweep begins. -/
theorem starts_runs {t u : Timed} {sid : ℕ} {node : String} {timeoutS now : ℤ}
    (hs : t.step (now, .startSweep sid node (.stuckRunning timeoutS) now) = some u) :
    u.world.store = t.world.store ∧
      Runs u.world sid (now - nanoseconds timeoutS) (.start node (.stuckRunning timeoutS) now) := by
  have hstep := (Timed.step_cases hs).2.2.1
  simp only [Jobs.step] at hstep
  split_ifs at hstep
  rw [← Option.some.inj hstep]
  exact ⟨rfl, ⟨OrderedMap.get_put_self _ _ _, ⟨timeoutS, rfl⟩, rfl⟩⟩

/-- A sweep that succeeds and starts later than the timeout after the last write
of a dead job finishes it, unless its record is still pending; and it writes no
job that it lists with a heartbeat within the timeout. -/
theorem stuck_jobs_finished {t₀ t₁ t₂ t₃ : Timed} {as bs : List (ℤ × Act)} {sid : ℕ}
    {node : String} {timeoutS now : ℤ} (h₀ : t₀.Initial)
    (hbefore : run Timed.step t₀ as = some t₁)
    (hstart : t₁.step (now, .startSweep sid node (.stuckRunning timeoutS) now) = some t₂)
    (hsucceeds : Keeps Timed.step (fun t x => succeeds sid t.world x.2 = true) t₂ bs)
    (hsweep : run Timed.step t₂ bs = some t₃)
    (hended : ∃ s, t₃.world.sweeps.get sid = some s ∧ s.pc = .ended) :
    (∀ id j, t₁.world.store.get id = some j → Dead t₁.world id →
        t₁.written id + nanoseconds timeoutS < now → j.state ≠ .pending →
          Finished t₃.world id) ∧
      ∀ id, Keeps Timed.step (fun t x => listsBeating sid id (now - nanoseconds timeoutS) t.world x.2)
          t₂ bs →
        ∀ x ∈ trace Timed.step t₂ bs, ∀ s, x.1.world.sweeps.get sid = some s →
          ∀ r ∈ s.puts, r.id ≠ id := by
  have hinv : t₁.Inv := run_invariant (fun t x u ht hu => Timed.inv_step ht hu) h₀.inv hbefore
  have hinv' : t₂.Inv := Timed.inv_step hinv hstart
  have hstep := (Timed.step_cases hstart).2.2.1
  obtain ⟨hstore, hruns⟩ := starts_runs hstart
  constructor
  · intro id j hj hdead hlate hpending
    have hused : id ∈ t₁.world.usedIds := by
      obtain ⟨hid, hused, -⟩ := hinv.holds.stored id j hj
      exact hid ▸ hused
    have hdue : Due t₂.world id (now - nanoseconds timeoutS) := by
      intro k hk
      rw [hstore, hj] at hk
      cases hk
      refine ⟨hpending, fun hrunning => ?_⟩
      cases hbeat : j.lastHeartbeat with
      | none => simp [Job.stale, hbeat]
      | some b =>
          have hwritten := hinv.written id j hj (by rw [hrunning]; rfl) b hbeat
          simp only [Job.stale, hbeat, Option.all_some, decide_eq_true_eq]
          omega
    have hswept : Swept sid (now - nanoseconds timeoutS) id t₃ :=
      run_guarded (fun t x u ht hg hu => swept_step ht hg hu)
        ⟨hinv', used_step hstep hused, dead_step hinv.sound hused hdead hstep, hdue, _, hruns,
          .inr trivial⟩ hsucceeds hsweep
    obtain ⟨s, hruns', hfinished | hawaits⟩ := hswept.sweep
    · exact hfinished
    · obtain ⟨s', hget, hpc⟩ := hended
      cases hruns'.got.symm.trans hget
      simp [Sweep.Awaits, hpc] at hawaits
  · intro id hlisted x hx s hget
    have hspared : Spared sid (now - nanoseconds timeoutS) id x.1 :=
      before_steps (fun t x u ht hg hu => spared_step ht hg.1 hg.2 hu) ⟨hinv', _, hruns, trivial⟩
        (keeps_and hsucceeds hlisted) hsweep x hx
    exact hspared.puts hget

def noTimedJobs : Timed := ⟨noJobs, 0, fun _ => 0⟩

theorem initial_noTimedJobs : noTimedJobs.Initial :=
  ⟨initial_noJobs, fun id j hj => (by cases hj), fun id j hj => (by cases hj),
    fun id j hj => (by cases hj)⟩

/-- node-1 dies with a running job, and node-2 has one of its own. -/
def twoOwners : List (ℤ × Act) :=
  [(0, .create "dead" "node-1" "create-backup" [] true 0), (0, .ownerAttempt "dead" .answered),
    (0, .owner "dead" (.begin 0)), (0, .ownerAttempt "dead" .answered),
    (nanoseconds 1, .crash "node-1"),
    (nanoseconds 2, .create "live" "node-2" "create-backup" [] true (nanoseconds 2)),
    (nanoseconds 2, .ownerAttempt "live" .answered),
    (nanoseconds 50, .owner "live" (.begin (nanoseconds 50))),
    (nanoseconds 50, .ownerAttempt "live" .answered)]

def sweepStart : ℤ × Act :=
  (nanoseconds 90, .startSweep 0 "node-2" (.stuckRunning 60) (nanoseconds 90))

def sweepNow (act : Act) : ℤ × Act := (nanoseconds 90, act)

/-- The sweep passes the live job and marks the dead one. -/
def marksOne : List (ℤ × Act) :=
  [sweepNow (.sweepAttempt 0 .answered), sweepNow (.sweepNext 0 (nanoseconds 90)),
    sweepNow (.sweepNext 0 (nanoseconds 90)), sweepNow (.sweepAttempt 0 .answered),
    sweepNow (.sweepNext 0 (nanoseconds 90))]

theorem stuck_jobs_finished_twoOwners :
    ∃ t₁ t₂ t₃, run Timed.step noTimedJobs twoOwners = some t₁ ∧ t₁.step sweepStart = some t₂ ∧
      run Timed.step t₂ marksOne = some t₃ ∧ Finished t₃.world "dead" ∧
      ∀ x ∈ trace Timed.step t₂ marksOne, ∀ s, x.1.world.sweeps.get 0 = some s →
        ∀ r ∈ s.puts, r.id ≠ "live" := by
  have htest : (run Timed.step noTimedJobs twoOwners).any (fun t₁ =>
      (t₁.world.store.get "dead").any (fun j => j.state = .running) &&
        decide (t₁.world.phase "dead" = .gone) && t₁.world.puts.isEmpty &&
        decide (t₁.written "dead" + nanoseconds 60 < nanoseconds 90) &&
        (t₁.step sweepStart).any fun t₂ => (run Timed.step t₂ marksOne).any fun t₃ =>
          (t₃.world.sweeps.get 0).any fun s => s.pc = .ended) = true := by
    decide +kernel
  have hkeeps : Keeps Timed.step (fun t x => succeeds 0 t.world x.2 = true) noTimedJobs
      (twoOwners ++ [sweepStart] ++ marksOne) := by
    decide +kernel
  have hbeats : Keeps Timed.step
      (fun t x => listsBeating 0 "live" (nanoseconds 90 - nanoseconds 60) t.world x.2) noTimedJobs
      (twoOwners ++ [sweepStart] ++ marksOne) := by
    decide +kernel
  obtain ⟨t₁, h₁, htest⟩ := (Option.any_eq_true _ _).mp htest
  simp only [Bool.and_eq_true, decide_eq_true_eq] at htest
  obtain ⟨⟨⟨⟨hstored, hgone⟩, hputs⟩, hlate⟩, htest⟩ := htest
  obtain ⟨j, hj, hrunning⟩ := (Option.any_eq_true _ _).mp hstored
  obtain ⟨t₂, h₂, htest⟩ := (Option.any_eq_true _ _).mp htest
  obtain ⟨t₃, h₃, htest⟩ := (Option.any_eq_true _ _).mp htest
  obtain ⟨s, hs, hpc⟩ := (Option.any_eq_true _ _).mp htest
  have hprefix : run Timed.step noTimedJobs (twoOwners ++ [sweepStart]) = some t₂ :=
    run_append.mpr ⟨t₁, h₁, run_cons.mpr ⟨t₂, h₂, rfl⟩⟩
  have hdead : Dead t₁.world "dead" := by
    refine ⟨hgone, fun r hr => ?_⟩
    rw [List.isEmpty_iff.mp hputs] at hr
    cases hr
  obtain ⟨hfinished, hspared⟩ := stuck_jobs_finished initial_noTimedJobs h₁ h₂
    (keeps_append hkeeps hprefix) h₃ ⟨s, hs, of_decide_eq_true hpc⟩
  refine ⟨t₁, t₂, t₃, h₁, h₂, h₃, hfinished "dead" j hj hdead hlate ?_,
    hspared "live" (keeps_append hbeats hprefix)⟩
  rw [of_decide_eq_true hrunning]
  decide

/-- node-1 dies before the task of its job has started. -/
def orphaned : List (ℤ × Act) :=
  [(0, .create "job" "node-1" "create-backup" [] true 0), (0, .ownerAttempt "job" .answered),
    (nanoseconds 1, .crash "node-1")]

/-- The sweep passes the job. -/
def marksNone : List (ℤ × Act) :=
  [sweepNow (.sweepAttempt 0 .answered), sweepNow (.sweepNext 0 (nanoseconds 90)),
    sweepNow (.sweepNext 0 (nanoseconds 90))]

/-- The job of a dead owner is pending after a sweep that succeeds. -/
theorem pending_job_left :
    ∃ t₁ t₂ t₃ j, run Timed.step noTimedJobs orphaned = some t₁ ∧ Dead t₁.world "job" ∧
      t₁.written "job" + nanoseconds 60 < nanoseconds 90 ∧ t₁.step sweepStart = some t₂ ∧
      Keeps Timed.step (fun t x => succeeds 0 t.world x.2 = true) t₂ marksNone ∧
      run Timed.step t₂ marksNone = some t₃ ∧
      (∃ s, t₃.world.sweeps.get 0 = some s ∧ s.pc = .ended) ∧
      t₃.world.store.get "job" = some j ∧ j.state = .pending := by
  have htest : (run Timed.step noTimedJobs orphaned).any (fun t₁ =>
      decide (t₁.world.phase "job" = .gone) && t₁.world.puts.isEmpty &&
        decide (t₁.written "job" + nanoseconds 60 < nanoseconds 90) &&
        (t₁.step sweepStart).any fun t₂ =>
          (run (checked Timed.step fun t x => succeeds 0 t.world x.2) t₂ marksNone).any fun t₃ =>
            (t₃.world.sweeps.get 0).any (fun s => s.pc = .ended) &&
              (t₃.world.store.get "job").any fun j => j.state = .pending) = true := by
    decide +kernel
  obtain ⟨t₁, h₁, htest⟩ := (Option.any_eq_true _ _).mp htest
  simp only [Bool.and_eq_true, decide_eq_true_eq] at htest
  obtain ⟨⟨⟨hgone, hputs⟩, hlate⟩, htest⟩ := htest
  obtain ⟨t₂, h₂, htest⟩ := (Option.any_eq_true _ _).mp htest
  obtain ⟨t₃, h₃, htest⟩ := (Option.any_eq_true _ _).mp htest
  obtain ⟨hkeeps, hsweep⟩ := keeps_of_checked h₃
  simp only [Bool.and_eq_true] at htest
  obtain ⟨s, hs, hpc⟩ := (Option.any_eq_true _ _).mp htest.1
  obtain ⟨j, hj, hpending⟩ := (Option.any_eq_true _ _).mp htest.2
  refine ⟨t₁, t₂, t₃, j, h₁, ⟨hgone, fun r hr => ?_⟩, hlate, h₂, hkeeps, hsweep,
    ⟨s, hs, of_decide_eq_true hpc⟩, hj, of_decide_eq_true hpending⟩
  rw [List.isEmpty_iff.mp hputs] at hr
  cases hr

end MilvusOnprem.Jobs
