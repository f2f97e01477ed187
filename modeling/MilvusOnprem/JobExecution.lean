import MilvusOnprem.Jobs

/-!
# The task of a job

`_execute` from the moment `create` has scheduled it, with the entry of the job
in `_running`. A cancellation arrives at the await the task stands at: before its
first step, in the first PUT, in the worker, at the flusher, in the final PUT.
The worker may let it pass or catch it, and may end in any way or go on. A PUT
counts as attempted once it is called, whatever becomes of it.
-/
namespace MilvusOnprem.JobExecution

open EtcdClient PythonText Jobs GuardedRuns

/-- The task with its job, whether `_running` has the id, and the records of the
PUTs that were attempted, the latest first. -/
structure Task where
  owner : Owner
  running : Bool
  puts : List Job
deriving DecidableEq

/-- A worker raises an `Exception` with a text, or something else that is no
cancellation either. -/
inductive Act where
  | begin (now : ℤ)
  | answered (res : Except Exc Unit)
  | log (line : String)
  | progress (p : ℚ)
  | complete
  | raise (error : String)
  | raiseBase
  | cancel
  | catchCancel
  | tick (now : ℤ)
  | flushed
  | close (now : ℤ)
deriving DecidableEq

/-- The job as `create` leaves it. -/
def start (id node type : String) (params : List (String × Json)) (now : ℤ) : Task where
  owner := ⟨pendingJob id node type params now, .scheduled, 0, .idle⟩
  running := true
  puts := []

/-- A step of the two tasks between their calls. -/
def Task.act (t : Task) (a : OwnerAct) : Option Task :=
  (t.owner.act a).map fun x => { t with owner := x.1 }

/-- A step that ends in the call of a PUT. -/
def Task.put (t : Task) : Task := { t with puts := t.owner.job :: t.puts }

def reply : Except Exc Unit → Except Exc Jobs.Reply
  | .ok () => .ok .done
  | .error e => .error e

def step (t : Task) : Act → Option Task
  | .begin now => (t.act (.begin now)).map Task.put
  | .answered res =>
      match t.owner.pc with
      -- an error of the first PUT leaves the task
      | .starting => some { t with owner := t.owner.answered (reply res) }
      -- an error of the final PUT is only logged
      | .closing => some { t with owner := t.owner.answered (reply res), running := false }
      | _ => none
  | .log line => t.act (.log line)
  | .progress p => t.act (.progress p)
  | .complete => t.act .complete
  | .raise error => t.act (.raise error)
  | .raiseBase =>
      if t.owner.pc = .working then some { t with owner := (t.owner.finish t.owner.job).1 } else none
  | .cancel => t.act .cancel
  | .catchCancel => if t.owner.pc = .working then some t else none
  | .tick now => (t.act (.tick now)).map Task.put
  | .flushed =>
      match t.owner.flusher with
      | .flushing _ _ => some { t with owner := { t.owner with flusher := .sleeping } }
      | .idle | .sleeping => none
  | .close now => (t.act (.close now)).map Task.put

/-- The job is terminal with the time it finished, a PUT of this record was
attempted, and the id is no longer in `_running`. -/
structure Settled (t : Task) : Prop where
  terminal : t.owner.job.state.terminal = true
  finished : t.owner.job.finishedAt ≠ none
  put : t.owner.job ∈ t.puts
  cleared : t.running = false

/-- No cancellation before the first step or in one of the two PUTs of the task,
no error of the first PUT, and nothing from the worker but exceptions and
cancellations. -/
def orderly (t : Task) : Act → Bool
  | .cancel => t.owner.pc = .working ∨ t.owner.pc = .finishing
  | .answered (.error _) => t.owner.pc = .closing
  | .raiseBase => false
  | _ => true

/-! ## What a step can do -/

inductive Steps (t : Task) : Act → Task → Prop
  | begin {now} : t.owner.pc = .scheduled → Steps t (.begin now)
      { t with
        owner := { t.owner with
          job := { t.owner.job with state := .running, lastHeartbeat := some now }
          pc := .starting }
        puts := { t.owner.job with state := .running, lastHeartbeat := some now } :: t.puts }
  | started : t.owner.pc = .starting → Steps t (.answered (.ok ()))
      { t with owner := { t.owner with pc := .working, tries := 0, flusher := .sleeping } }
  | startFailed {e} : t.owner.pc = .starting → Steps t (.answered (.error e))
      { t with owner := { t.owner with pc := .ended, tries := 0 } }
  | closed {res} : t.owner.pc = .closing → Steps t (.answered res)
      { t with owner := { t.owner with pc := .ended, tries := 0 }, running := false }
  | work {a job} : t.owner.pc = .working → job.state = t.owner.job.state → orderly t a = true →
      Steps t a { t with owner := { t.owner with job := job } }
  | finish {a job} : t.owner.pc = .working →
      (a = .raiseBase ∧ job = t.owner.job ∨ job.state.terminal = true ∧ orderly t a = true) →
      Steps t a { t with owner := (t.owner.finish job).1 }
  | dropped : t.owner.pc = .scheduled ∨ t.owner.pc = .starting ∨ t.owner.pc = .closing →
      Steps t .cancel { t with owner := { t.owner with pc := .ended, tries := 0 } }
  | swallowed : t.owner.pc = .finishing → Steps t .cancel t
  | tick {now} : t.owner.flusher = .sleeping → Steps t (.tick now)
      { t with
        owner := { t.owner with
          job := { t.owner.job with lastHeartbeat := some now }
          flusher := .flushing { t.owner.job with lastHeartbeat := some now } 0 }
        puts := { t.owner.job with lastHeartbeat := some now } :: t.puts }
  | flushed {record tries} : t.owner.flusher = .flushing record tries → Steps t .flushed
      { t with owner := { t.owner with flusher := .sleeping } }
  | close {now} : t.owner.pc = .finishing → Steps t (.close now)
      { t with
        owner := { t.owner with
          job := { t.owner.job with finishedAt := some now }
          pc := .closing }
        puts := { t.owner.job with finishedAt := some now } :: t.puts }

theorem steps_of_step {t u : Task} {a : Act} (h : step t a = some u) : Steps t a u := by
  cases a with
  | begin now =>
      simp only [step, Task.act, Owner.act] at h
      split_ifs at h with hpc
      · cases h
        exact .begin hpc
      · cases h
  | answered res =>
      simp only [step] at h
      split at h
      · next hpc =>
          cases res with
          | ok u =>
              cases h
              simp only [Owner.answered, reply, hpc]
              exact .started hpc
          | error e =>
              cases h
              simp only [Owner.answered, reply, hpc]
              exact .startFailed hpc
      · next hpc =>
          cases h
          simp only [Owner.answered, hpc]
          exact .closed hpc
      · cases h
  | log line =>
      simp only [step, Task.act, Owner.act] at h
      split_ifs at h with hpc
      · cases h
        exact .work hpc (t.owner.job.logWriter_state line) rfl
      · cases h
  | progress p =>
      simp only [step, Task.act, Owner.act] at h
      split_ifs at h with hpc
      · cases h
        exact .work hpc rfl rfl
      · cases h
  | complete =>
      simp only [step, Task.act, Owner.act] at h
      split_ifs at h with hpc
      · cases h
        exact .finish hpc (.inr ⟨rfl, rfl⟩)
      · cases h
  | raise error =>
      simp only [step, Task.act, Owner.act] at h
      split_ifs at h with hpc
      · cases h
        exact .finish hpc (.inr ⟨rfl, rfl⟩)
      · cases h
  | raiseBase =>
      simp only [step] at h
      split_ifs at h with hpc
      cases h
      exact .finish hpc (.inl ⟨rfl, rfl⟩)
  | cancel =>
      simp only [step, Task.act, Owner.act] at h
      split at h
      · next hpc =>
          cases h
          exact .dropped (.inl hpc)
      · next hpc =>
          cases h
          exact .dropped (.inr (.inl hpc))
      · next hpc =>
          cases h
          exact .dropped (.inr (.inr hpc))
      · next hpc =>
          cases h
          exact .finish hpc (.inr ⟨rfl, by simp [orderly, hpc]⟩)
      · next hpc =>
          cases h
          exact .swallowed hpc
      · cases h
      · cases h
  | catchCancel =>
      simp only [step] at h
      split_ifs at h with hpc
      cases h
      exact .work hpc rfl rfl
  | tick now =>
      simp only [step, Task.act, Owner.act] at h
      split_ifs at h with hsleep
      · cases h
        exact .tick hsleep
      · cases h
  | flushed =>
      simp only [step] at h
      split at h
      · next hflush =>
          cases h
          exact .flushed hflush
      · cases h
      · cases h
  | close now =>
      simp only [step, Task.act, Owner.act] at h
      split_ifs at h with hpc
      · cases h
        exact .close hpc
      · cases h

/-! ## Where a task goes wrong -/

/-- Where the outcome of the worker is settled. -/
def late : OwnerPc → Bool
  | .finishing | .closing | .ended => true
  | .creating | .scheduled | .starting | .working => false

/-- The task has ended with its id in `_running`, or is past the worker with a
job that still runs. -/
def Bad (t : Task) : Prop :=
  t.owner.pc = .ended ∧ t.running = true ∨
    late t.owner.pc = true ∧ t.owner.job.state.terminal = false

def Inv (t : Task) : Prop :=
  match t.owner.pc with
  | .creating => False
  | .scheduled | .finishing => t.running = true ∧ t.owner.flusher = .idle
  | .starting => (t.running = true ∧ t.owner.flusher = .idle) ∧ t.owner.job.state = .running
  | .working => t.running = true ∧ t.owner.job.state = .running
  | .closing => (t.running = true ∧ t.owner.flusher = .idle) ∧
      t.owner.job.finishedAt ≠ none ∧ t.owner.job ∈ t.puts
  | .ended => t.owner.flusher = .idle ∧
      (t.running = false → t.owner.job.finishedAt ≠ none ∧ t.owner.job ∈ t.puts)

/-- Only beside the worker is there a flusher. -/
theorem Inv.working {t : Task} (h : Inv t) (hf : t.owner.flusher ≠ .idle) :
    t.owner.pc = .working := by
  unfold Inv at h
  split at h
  · cases h
  · exact absurd h.2 hf
  · exact absurd h.2 hf
  · exact absurd h.1.2 hf
  · assumption
  · exact absurd h.1.2 hf
  · exact absurd h.1 hf

theorem inv_start (id node type : String) (params : List (String × Json)) (now : ℤ) :
    Inv (start id node type params now) := ⟨rfl, rfl⟩

theorem inv_step {t u : Task} {a : Act} (h : Inv t) (hs : step t a = some u) : Inv u := by
  cases steps_of_step hs with
  | begin hpc =>
      simp only [Inv, hpc] at h
      exact ⟨h, rfl⟩
  | started hpc =>
      simp only [Inv, hpc] at h
      exact ⟨h.1.1, h.2⟩
  | startFailed hpc =>
      simp only [Inv, hpc] at h
      exact ⟨h.1.2, fun hr => by rw [h.1.1] at hr; cases hr⟩
  | closed hpc =>
      simp only [Inv, hpc] at h
      exact ⟨h.1.2, fun _ => h.2⟩
  | work hpc hstate _ =>
      simp only [Inv, hpc] at h ⊢
      exact ⟨h.1, hstate.trans h.2⟩
  | finish hpc _ =>
      simp only [Inv, hpc] at h
      exact ⟨h.1, rfl⟩
  | dropped hpc =>
      have hrunning : t.running = true ∧ t.owner.flusher = .idle := by
        rcases hpc with hpc | hpc | hpc
        · simpa only [Inv, hpc] using h
        · simp only [Inv, hpc] at h
          exact h.1
        · simp only [Inv, hpc] at h
          exact h.1
      exact ⟨hrunning.2, fun hr => by rw [hrunning.1] at hr; cases hr⟩
  | swallowed _ => exact h
  | tick hsleep =>
      have hpc := h.working (by rw [hsleep]; decide)
      simp only [Inv, hpc] at h ⊢
      exact h
  | flushed hflush =>
      have hpc := h.working (by rw [hflush]; simp)
      simp only [Inv, hpc] at h ⊢
      exact h
  | close hpc =>
      simp only [Inv, hpc] at h
      exact ⟨h, by simp, List.mem_cons_self⟩

theorem Inv.kept {t : Task} (h : Inv t) (hpc : t.owner.pc ≠ .ended) : t.running = true := by
  unfold Inv at h
  split at h
  · cases h
  · exact h.1
  · exact h.1
  · exact h.1.1
  · exact h.1
  · exact h.1.1
  · next hended => exact absurd hended hpc

/-- A task goes wrong exactly at a step that is not orderly. -/
theorem bad_iff {t u : Task} {a : Act} (h : Inv t) (hok : ¬Bad t) (hs : step t a = some u) :
    Bad u ↔ ¬orderly t a = true := by
  simp only [Bad, not_or, not_and] at hok
  cases steps_of_step hs with
  | begin hpc => simp [Bad, late, orderly]
  | started hpc => simp [Bad, late, orderly]
  | startFailed hpc => simp [Bad, late, orderly, hpc, h.kept (by rw [hpc]; decide)]
  | @closed res hpc =>
      have hterminal := hok.2 (by rw [hpc]; rfl)
      cases res <;> simpa [Bad, late, orderly, hpc] using hterminal
  | work hpc hstate horderly => simp [Bad, late, hpc, horderly]
  | finish hpc hcause =>
      rcases hcause with ⟨rfl, rfl⟩ | ⟨hterminal, horderly⟩
      · simp only [Inv, hpc] at h
        simp [Bad, late, orderly, Owner.finish, h.2, JobState.terminal]
      · simp [Bad, late, Owner.finish, hterminal, horderly]
  | dropped hpc =>
      have hrunning : t.running = true := by
        apply h.kept
        rcases hpc with hpc | hpc | hpc <;> rw [hpc] <;> decide
      rcases hpc with hpc | hpc | hpc <;> simp [Bad, orderly, hpc, hrunning]
  | swallowed hpc =>
      have hterminal := hok.2 (by rw [hpc]; rfl)
      simpa [Bad, late, orderly, hpc] using hterminal
  | tick hsleep =>
      have hpc := h.working (by rw [hsleep]; decide)
      simp [Bad, late, orderly, hpc]
  | flushed hflush =>
      have hpc := h.working (by rw [hflush]; simp)
      simp [Bad, late, orderly, hpc]
  | close hpc =>
      have hterminal := hok.2 (by rw [hpc]; rfl)
      simpa [Bad, late, orderly] using hterminal

theorem Bad.late {t : Task} (h : Bad t) : late t.owner.pc = true := by
  rcases h with ⟨hended, -⟩ | ⟨hlate, -⟩
  · rw [hended]
    rfl
  · exact hlate

/-- Before the end only the state of the job can be wrong. -/
theorem Bad.state {t : Task} (h : Bad t) (hpc : t.owner.pc ≠ .ended) :
    t.owner.job.state.terminal = false := by
  rcases h with ⟨hended, -⟩ | ⟨-, hstate⟩
  · exact absurd hended hpc
  · exact hstate

/-- A task that has gone wrong stays so. -/
theorem bad_step {t u : Task} {a : Act} (h : Inv t) (hbad : Bad t) (hs : step t a = some u) :
    Bad u := by
  have hlate := hbad.late
  cases steps_of_step hs with
  | begin hpc | started hpc | startFailed hpc | work hpc _ _ | finish hpc _ =>
      rw [hpc] at hlate
      cases hlate
  | closed hpc => exact .inr ⟨rfl, hbad.state (by rw [hpc]; decide)⟩
  | dropped hpc =>
      rcases hpc with hpc | hpc | hpc
      · rw [hpc] at hlate
        cases hlate
      · rw [hpc] at hlate
        cases hlate
      · exact .inr ⟨rfl, hbad.state (by rw [hpc]; decide)⟩
  | swallowed _ => exact hbad
  | tick hsleep =>
      rw [h.working (by rw [hsleep]; decide)] at hlate
      cases hlate
  | flushed hflush =>
      rw [h.working (by rw [hflush]; simp)] at hlate
      cases hlate
  | close hpc => exact .inr ⟨rfl, hbad.state (by rw [hpc]; decide)⟩

/-- An ended task is settled unless it has gone wrong. -/
theorem settled_iff {t : Task} (h : Inv t) (hend : t.owner.pc = .ended) : Settled t ↔ ¬Bad t := by
  simp only [Inv, hend] at h
  simp only [Bad, hend, late, true_and, not_or, Bool.not_eq_true, Bool.not_eq_false]
  constructor
  · intro hs
    exact ⟨hs.cleared, hs.terminal⟩
  · intro hok
    exact ⟨hok.2, (h.2 hok.1).1, (h.2 hok.1).2, hok.1⟩

/-! ## Runs -/

variable {id node type : String} {params : List (String × Json)} {now : ℤ}

/-- A task that has ended leaves a terminal job with the time it finished, has
tried to put this record, and is no longer in `_running`, if and only if every
step was orderly. -/
theorem settled_iff_orderly {acts : List Act} {t : Task}
    (hr : run step (start id node type params now) acts = some t) (hend : t.owner.pc = .ended) :
    Settled t ↔ Keeps step (fun t a => orderly t a = true) (start id node type params now) acts := by
  have hstart := inv_start id node type params now
  have hinv : Inv t := run_invariant (fun _ _ _ => inv_step) hstart hr
  have hfine : ¬Bad (start id node type params now) := by
    rintro (⟨hpc, -⟩ | ⟨hlate, -⟩)
    · cases hpc
    · cases hlate
  have hnever := keeps_iff_never (fun _ _ _ => inv_step) (fun _ _ _ => bad_iff) hstart hfine hr
  rw [hnever, settled_iff hinv hend]
  constructor
  · intro hok bs u hbs hu hbad
    obtain ⟨cs, rfl⟩ := hbs
    obtain ⟨u', hu', hrest⟩ := run_append.mp hr
    cases hu.symm.trans hu'
    have hboth : Inv t ∧ Bad t := by
      refine run_invariant (I := fun t => Inv t ∧ Bad t) ?_ ?_ hrest
      · rintro s a s' ⟨hi, hb⟩ hs
        exact ⟨inv_step hi hs, bad_step hi hb hs⟩
      · exact ⟨run_invariant (fun _ _ _ => inv_step) hstart hu, hbad⟩
    exact hok hboth.2
  · intro hall
    exact hall acts t (List.prefix_refl acts) hr

/-! ## Two tasks -/

def backup : Task := start "job" "node-1" "create-backup" [("name", .str "nightly")] 0

/-- The worker catches a cancellation and is cancelled later, once more while the
flusher ends, and the final PUT fails. -/
def cancelledRun : List Act :=
  [.begin 1, .answered (.ok ()), .log "started", .tick 2, .catchCancel, .flushed, .cancel, .cancel,
    .close 3, .answered (.error (.runtimeError "etcd: all endpoints failed after retries"))]

theorem settled_iff_orderly_cancelled : ∃ t, run step backup cancelledRun = some t ∧
    t.owner.pc = .ended ∧ Settled t := by
  have hrun : (run step backup cancelledRun).any (fun t => t.owner.pc = .ended) = true := by
    decide +kernel
  obtain ⟨t, ht, hend⟩ := (Option.any_eq_true _ _).mp hrun
  refine ⟨t, ht, of_decide_eq_true hend, ?_⟩
  exact (settled_iff_orderly ht (of_decide_eq_true hend)).mpr (by decide +kernel)

/-- The first PUT fails: the job stays in `_running`, and nothing says it ended. -/
def failedStart : List Act :=
  [.begin 1, .answered (.error (.runtimeError "etcd: all endpoints failed after retries"))]

theorem failed_start_not_settled : ∃ t, run step backup failedStart = some t ∧
    t.owner.pc = .ended ∧ ¬Settled t := by
  have hrun : (run step backup failedStart).any (fun t =>
      decide (t.owner.pc = .ended) && decide (t.running = true)) = true := by
    decide +kernel
  obtain ⟨t, ht, htest⟩ := (Option.any_eq_true _ _).mp hrun
  rw [Bool.and_eq_true, decide_eq_true_eq, decide_eq_true_eq] at htest
  refine ⟨t, ht, htest.1, fun hs => ?_⟩
  rw [hs.cleared] at htest
  exact absurd htest.2 (by decide)

end MilvusOnprem.JobExecution
