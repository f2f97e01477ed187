import MilvusOnprem.JobSteps
import MilvusOnprem.MalformedJobs

/-!
# The jobs as etcd holds them

The model of the jobs has records where etcd has texts. Here every record is the text
of `to_json` under the key of its job, beside any other keys, and etcd executes the
requests of the tasks on the texts. `get`, `list_jobs` and both sweeps decode what they
find; they get the jobs of the model back, in its order, and they make the calls that
the model makes. No record that the program writes is skipped or raises.

How a progress is written as a decimal is a parameter; nothing compares progresses.
-/
namespace MilvusOnprem.JobTexts

open PythonText JsonText CheckedSort GuardedRuns
open EtcdClient (withPrefix attemptLate_state after)
open Jobs (Job JobState Request World Act Sweep SweepKind OwnerAct nanoseconds sortedJobs)
open JobListing (Record Raised JOBS_PREFIX FLOAT_LIMIT toRat fromJson isText readJobs listJobs
  visitOld visitStuck pruneOld pruneStuckRunning)

/-! ## Records and their texts -/

def stateText : JobState → String
  | .pending => "pending"
  | .running => "running"
  | .done => "done"
  | .failed => "failed"
  | .cancelled => "cancelled"

/-- A reading of the clock as a number of seconds. -/
def seconds (t : ℤ) : Decimal := ⟨t, 8⟩

def orNull {α : Type} (f : α → Json) : Option α → Json
  | none => .null
  | some a => f a

/-- `asdict` -/
def recordOf (shown : ℚ → Decimal) (job : Job) : Record where
  id := .str job.id
  type := .str job.type
  params := .obj job.params
  state := .str (stateText job.state)
  progress := .float (shown job.progress)
  startedAt := .float (seconds job.startedAt)
  finishedAt := orNull (fun t => .float (seconds t)) job.finishedAt
  error := orNull .str job.error
  owner := .str job.owner
  logs := .arr (job.logs.map .str)
  lastHeartbeat := orNull (fun t => .float (seconds t)) job.lastHeartbeat

def fieldsOf (r : Record) : List (String × Json) :=
  [("id", r.id), ("type", r.type), ("params", r.params), ("state", r.state), ("progress", r.progress),
    ("started_at", r.startedAt), ("finished_at", r.finishedAt), ("error", r.error), ("owner", r.owner),
    ("logs", r.logs), ("last_heartbeat", r.lastHeartbeat)]

/-- `Job.to_json` -/
def toJson (shown : ℚ → Decimal) (job : Job) : String :=
  dumpsCompact (.obj (fieldsOf (recordOf shown job)))

/-- `_key` -/
def jobKey (id : String) : String := JOBS_PREFIX ++ id

/-- `JobsManager.get` -/
def getJob (kv : OrderedMap String String) (jid : String) : Except Raised (Option Record) :=
  match kv.get (jobKey jid) with
  | none => .ok none
  | some v =>
      match fromJson v with
      | .ok job => .ok (some job)
      | .error .jsonDecodeError | .error .typeError => .ok none
      | .error e => .error e

/-- The requests of the tasks, as etcd executes them on texts. -/
def serveTexts (shown : ℚ → Decimal) (kv : OrderedMap String String) : Request → OrderedMap String String
  | .put job => kv.put (jobKey job.id) (toJson shown job)
  | .delete id => kv.erase (jobKey id)
  | .list => kv

/-- The texts under the keys of jobs are those of the jobs. -/
def Stored (shown : ℚ → Decimal) (kv : OrderedMap String String) (jobs : OrderedMap String Job) : Prop :=
  ∀ id, kv.get (jobKey id) = (jobs.get id).map (toJson shown)

/-- A time that is a float. -/
def IsFloat (t : ℤ) : Prop := -FLOAT_LIMIT < toRat (seconds t) ∧ toRat (seconds t) < FLOAT_LIMIT

/-- An id that is no path, and a heartbeat that is a float. -/
def Plain (id : String) (beat : Option ℤ) : Prop := '/' ∉ id.toList ∧ ∀ t, beat = some t → IsFloat t

def valuesOf (jobs : OrderedMap String Job) : List Job := jobs.entries.map Prod.snd

section Texts

variable {shown : ℚ → Decimal} {kv : OrderedMap String String} {jobs : OrderedMap String Job}

/-- `from_json` is the inverse of `to_json`. -/
theorem fromJson_toJson (job : Job) : fromJson (toJson shown job) = .ok (recordOf shown job) := by
  rw [fromJson, toJson, loads_dumpsCompact]
  rfl

theorem jobKey_injective : Function.Injective jobKey := by
  intro a b h
  have hlist := congrArg String.toList h
  rw [jobKey, jobKey, String.toList_append, String.toList_append] at hlist
  exact String.toList_injective (List.append_cancel_left hlist)

theorem jobKey_lt {a b : String} (h : a < b) : jobKey a < jobKey b := by
  rw [String.lt_iff_toList_lt] at h ⊢
  rw [jobKey, jobKey, String.toList_append, String.toList_append]
  exact List.append_left_lt h

theorem stored_serve (h : Stored shown kv jobs) (q : Request) :
    Stored shown (serveTexts shown kv q) (Jobs.serve jobs q).1 := by
  intro id
  cases q with
  | put job =>
      rw [serveTexts, Jobs.serve, OrderedMap.get_put, OrderedMap.get_put, h id]
      by_cases hid : job.id = id
      · rw [if_pos (congrArg jobKey hid), if_pos hid, Option.map_some]
      · rw [if_neg fun heq => hid (jobKey_injective heq), if_neg hid]
  | delete k =>
      rw [serveTexts, Jobs.serve, OrderedMap.get_erase, OrderedMap.get_erase, h id]
      by_cases hid : k = id
      · rw [if_pos (congrArg jobKey hid), if_pos hid, Option.map_none]
      · rw [if_neg fun heq => hid (jobKey_injective heq), if_neg hid]
  | list => exact h id

/-- What a scan of the prefix returns. -/
theorem withPrefix_stored (h : Stored shown kv jobs) :
    withPrefix JOBS_PREFIX kv = jobs.entries.map fun e => (jobKey e.1, toJson shown e.2) := by
  let scanned : OrderedMap String String := ⟨withPrefix JOBS_PREFIX kv, kv.sorted.filter _⟩
  let written : OrderedMap String String :=
    ⟨jobs.entries.map fun e => (jobKey e.1, toJson shown e.2), by
      rw [List.pairwise_map]
      exact jobs.sorted.imp jobKey_lt⟩
  have hsame : scanned = written := by
    apply OrderedMap.ext_get
    intro key
    apply Option.ext
    intro text
    rw [← OrderedMap.mem_entries, ← OrderedMap.mem_entries]
    change (key, text) ∈ kv.entries.filter _ ↔ (key, text) ∈ jobs.entries.map _
    rw [List.mem_filter, List.mem_map, OrderedMap.mem_entries]
    constructor
    · rintro ⟨hget, hpre⟩
      have hkey : jobKey (removePrefix JOBS_PREFIX key) = key := append_removePrefix hpre
      rw [← hkey, h] at hget
      obtain ⟨job, hjob, htext⟩ := Option.map_eq_some_iff.mp hget
      exact ⟨(removePrefix JOBS_PREFIX key, job), OrderedMap.mem_entries.mpr hjob, Prod.ext hkey htext⟩
    · rintro ⟨⟨id, job⟩, hjob, heq⟩
      cases heq
      rw [h, OrderedMap.mem_entries.mp hjob]
      exact ⟨rfl, startsWith_append _ _⟩
  exact congrArg OrderedMap.entries hsame

/-! ## The listing -/

theorem insertBy_map {α β ε : Type} {lt : α → α → Except ε Bool} {r : β → β → Prop} [DecidableRel r] {f : β → α}
    (hlt : ∀ a b, lt (f a) (f b) = .ok (decide ¬r a b)) (x : β) (ys : List β) :
    insertBy lt (f x) (ys.map f) = .ok ((ys.orderedInsert r x).map f) := by
  induction ys with
  | nil => rfl
  | cons y ys ih =>
      rw [List.map_cons, insertBy, hlt, List.orderedInsert]
      by_cases hr : r x y
      · simp [hr]
      · simp [hr, ih, Except.map]

/-- A sort with comparisons that succeed is the insertion sort. -/
theorem sortBy_map {α β ε : Type} {lt : α → α → Except ε Bool} {r : β → β → Prop} [DecidableRel r] {f : β → α}
    (hlt : ∀ a b, lt (f a) (f b) = .ok (decide ¬r a b)) (xs : List β) :
    sortBy lt (xs.map f) = .ok ((xs.insertionSort r).map f) := by
  induction xs with
  | nil => rfl
  | cons x xs ih =>
      rw [List.map_cons, sortBy, ih, List.insertionSort_cons]
      exact insertBy_map hlt x _

theorem toRat_seconds (t : ℤ) : toRat (seconds t) = (t : ℚ) / 10 ^ 9 := rfl

theorem seconds_lt (s t : ℤ) : toRat (seconds s) < toRat (seconds t) ↔ s < t := by
  rw [toRat_seconds, toRat_seconds, div_lt_div_iff_of_pos_right (by norm_num)]
  exact Int.cast_lt

theorem lt_startedAt (a b : Job) : JobListing.lt (recordOf shown a).startedAt (recordOf shown b).startedAt =
    .ok (decide ¬b.startedAt ≤ a.startedAt) := by
  have hlt : JobListing.lt (.float (seconds a.startedAt)) (.float (seconds b.startedAt)) =
      .ok (decide (toRat (seconds a.startedAt) < toRat (seconds b.startedAt))) := by
    rw [JobListing.lt]
    · rfl
    · simp
    · simp
  rw [recordOf, recordOf, hlt]
  simp only [seconds_lt, not_le]

/-- The loop over the keys decodes every job, and skips none. -/
theorem readJobs_texts (state : Option String) {entries : List (String × Job)}
    (h : ∀ e ∈ entries, '/' ∉ e.1.toList) :
    readJobs state (entries.map fun e => (jobKey e.1, toJson shown e.2)) =
      .ok (((entries.map Prod.snd).filter fun j => state.all fun s => stateText j.state = s).map
        (recordOf shown)) := by
  induction entries with
  | nil => rfl
  | cons e entries ih =>
      have hid : removePrefix JOBS_PREFIX (jobKey e.1) = e.1 := removePrefix_append _ _
      have hplain := h e List.mem_cons_self
      rw [List.map_cons, readJobs, hid, if_neg hplain, fromJson_toJson]
      dsimp only
      rw [ih fun x hx => h x (List.mem_cons_of_mem e hx), List.map_cons, List.filter_cons]
      have hpasses : JobListing.passes state (recordOf shown e.2) =
          state.all fun s => stateText e.2.state = s := rfl
      rw [hpasses]
      by_cases hstate : (state.all fun s => decide (stateText e.2.state = s)) = true
      · simp [hstate, Except.map]
      · simp [hstate, Except.map]

/-- `list_jobs` returns the jobs of the model, the latest first. -/
theorem listJobs_stored (h : Stored shown kv jobs) (hids : ∀ id job, jobs.get id = some job → '/' ∉ id.toList)
    (state : Option String) :
    listJobs state (withPrefix JOBS_PREFIX kv) = .ok ((sortedJobs ((valuesOf jobs).filter fun j =>
      state.all fun s => stateText j.state = s)).map (recordOf shown)) := by
  have hentries : ∀ e ∈ jobs.entries, '/' ∉ e.1.toList := fun e he => hids e.1 e.2 (OrderedMap.mem_entries.mp he)
  rw [listJobs, withPrefix_stored h, readJobs_texts state hentries]
  exact @sortBy_map Record Job Raised (fun a b => JobListing.lt a.startedAt b.startedAt) _ _ (recordOf shown)
    lt_startedAt _

/-! ## The sweeps -/

theorem isText_stateText (s t : JobState) : isText (stateText s) (.str (stateText t)) = decide (t = s) := by
  cases s <;> cases t <;> rfl

theorem isTerminal_stateText (s : JobState) : JobListing.isTerminal (.str (stateText s)) = s.terminal := by
  cases s <;> rfl

theorem cutoff_seconds (now s : ℤ) : toRat (seconds now) - s = toRat (seconds (now - nanoseconds s)) := by
  rw [toRat_seconds, toRat_seconds, nanoseconds]
  push_cast
  ring

/-- Whole seconds, rounded towards zero. -/
theorem tdiv_seconds (n : ℤ) : ((n : ℚ) / 10 ^ 9).num.tdiv ((n : ℚ) / 10 ^ 9).den = n.tdiv 1000000000 := by
  obtain ⟨c, hnum, hden⟩ :=
    Rat.exists_eq_mul_div_num_and_eq_mul_div_den n (show (1000000000 : ℤ) ≠ 0 by decide)
  have hpow : ((1000000000 : ℤ) : ℚ) = 10 ^ 9 := by norm_num
  rw [hpow] at hnum hden
  have hpos : 0 < c := by
    by_contra hneg
    have hprod : c * (((n : ℚ) / 10 ^ 9).den : ℤ) ≤ 0 :=
      mul_nonpos_of_nonpos_of_nonneg (not_lt.mp hneg) (Int.natCast_nonneg _)
    omega
  conv_rhs => rw [hnum, hden]
  rw [Int.mul_tdiv_mul_of_pos _ _ hpos]

theorem visitOld_recordOf (now retentionS : ℤ) (job : Job) :
    visitOld (toRat (seconds now) - retentionS) (recordOf shown job) =
      .ok (if job.state.terminal = true ∧ job.finishedAt.any (fun t => t < now - nanoseconds retentionS) = true then
        some (.str job.id) else none) := by
  have hterminal : JobListing.isTerminal (recordOf shown job).state = job.state.terminal :=
    isTerminal_stateText job.state
  rw [visitOld, hterminal]
  cases job.state.terminal with
  | false => simp
  | true =>
      cases hend : job.finishedAt with
      | none =>
          have hnull : (recordOf shown job).finishedAt = .null := by rw [recordOf, hend]; rfl
          simp [hnull]
      | some t =>
          have htime : (recordOf shown job).finishedAt = .float (seconds t) := by rw [recordOf, hend]; rfl
          have hfrom : JobListing.isFrom (.float (seconds t)) (toRat (seconds now) - retentionS) =
              .ok (!decide (t < now - nanoseconds retentionS)) := by
            rw [cutoff_seconds, JobListing.isFrom, JobListing.number]
            simp [JobListing.Number.le, JobListing.Number.lt, seconds_lt]
          rw [htime, if_pos rfl]
          dsimp only
          rw [hfrom]
          by_cases hlt : t < now - nanoseconds retentionS
          · simp [hlt, Except.map, recordOf]
          · simp [hlt, Except.map]

/-- The records that a stuck sweep writes: the clock is read once at its start, and at
every job for the age and again for the end. -/
def marks (timeoutS : ℤ) (clock : ℕ → ℤ) : ℕ → List Job → List Job
  | _, [] => []
  | i, job :: rest =>
      if job.state = .running ∧ job.stale (clock 0 - nanoseconds timeoutS) = true then
        { job.markFailed timeoutS (clock (2 * i + 1)) with finishedAt := some (clock (2 * i + 2)) } ::
          marks timeoutS clock (i + 1) rest
      else marks timeoutS clock (i + 1) rest

/-- The calls of a sweep of the model over the jobs that it has listed. -/
def calls (s : Sweep) (clock : ℕ → ℤ) : ℕ → List Job → List Request
  | _, [] => []
  | i, job :: rest =>
      ({ s with pc := s.visit (clock i) job rest } : Sweep).call.toList ++ calls s clock (i + 1) rest

theorem stale_seconds (beat : Option ℤ) (cutoff : ℤ) :
    JobListing.isStale (toRat (seconds cutoff)) (orNull (fun t => .float (seconds t)) beat) =
      .ok (beat.all fun t => t < cutoff) := by
  cases beat with
  | none => rfl
  | some t =>
      have hbefore : JobListing.isBefore (.float (seconds t)) (toRat (seconds cutoff)) =
          .ok (decide (toRat (seconds t) < toRat (seconds cutoff))) := rfl
      rw [orNull, JobListing.isStale, hbefore]
      · simp [seconds_lt]
      · simp

/-- The age of a heartbeat in the error of a marked job. -/
def ageOf (seen : ℤ) : Option ℤ → String
  | none => "never"
  | some t => toString ((seen - t).tdiv (nanoseconds 1)) ++ "s"

theorem markFailed_error (job : Job) (timeoutS seen : ℤ) : (job.markFailed timeoutS seen).error =
    some ("owner died (heartbeat age=" ++ ageOf seen job.lastHeartbeat ++ "; timeout=" ++ toString timeoutS ++
      "s) — job presumed stuck after daemon loss") := by
  cases hbeat : job.lastHeartbeat <;> simp only [Job.markFailed, hbeat, ageOf]

theorem ageText_seconds {beat : Option ℤ} (seen : ℤ)
    (h : ∀ t, beat = some t → IsFloat t) :
    JobListing.ageText (seconds seen) (orNull (fun t => .float (seconds t)) beat) = .ok (ageOf seen beat) := by
  cases beat with
  | none => rfl
  | some t =>
      have hfloat : ¬(toRat (seconds t) ≤ -FLOAT_LIMIT ∨ FLOAT_LIMIT ≤ toRat (seconds t)) := by
        rw [not_or, not_le, not_le]
        exact h t rfl
      have hdiff : toRat (seconds seen) - toRat (seconds t) = ((seen - t : ℤ) : ℚ) / 10 ^ 9 := by
        rw [toRat_seconds, toRat_seconds]
        push_cast
        ring
      have hage : JobListing.secondsSince (seconds seen) (.float (seconds t)) =
          .ok ((seen - t).tdiv (nanoseconds 1)) := by
        rw [JobListing.secondsSince, JobListing.number]
        simp only [if_neg hfloat, hdiff, tdiv_seconds]
        rfl
      rw [orNull, JobListing.ageText, hage]
      · rfl
      · simp

theorem visitStuck_recordOf {job : Job} (timeoutS start seen now : ℤ) (h : Plain job.id job.lastHeartbeat) :
    visitStuck timeoutS (toRat (seconds start) - timeoutS) (seconds seen) (seconds now) (recordOf shown job) =
      .ok (if job.state = .running ∧ job.stale (start - nanoseconds timeoutS) = true then
        some (recordOf shown { job.markFailed timeoutS seen with finishedAt := some now }) else none) := by
  have hrunning : isText "running" (recordOf shown job).state = decide (job.state = .running) :=
    isText_stateText .running job.state
  have hbeat : (recordOf shown job).lastHeartbeat = orNull (fun t => .float (seconds t)) job.lastHeartbeat := rfl
  rw [visitStuck, hrunning, hbeat, cutoff_seconds, stale_seconds, ageText_seconds seen h.2, ← Job.stale]
  by_cases hstate : job.state = .running
  · cases hstale : job.stale (start - nanoseconds timeoutS) with
    | false => simp [hstate]
    | true =>
        simp only [hstate, decide_true, if_true, and_self, Except.map, recordOf, markFailed_error]
        rfl
  · simp [hstate]

/-- The id that a call deletes, as a value of JSON. -/
def deletedId : Request → Option Json
  | .delete id => some (.str id)
  | _ => none

theorem sweep_old (now retentionS : ℤ) (i : ℕ) (js : List Job) (node : String) (clock : ℕ → ℤ) :
    JobListing.sweep (fun _ => visitOld (toRat (seconds now) - retentionS)) i (js.map (recordOf shown)) =
      ((calls (.start node (.old retentionS) now) clock i js).filterMap deletedId, .ok ()) := by
  induction js generalizing i with
  | nil => rfl
  | cons job js ih =>
      rw [List.map_cons, JobListing.sweep, visitOld_recordOf, calls, List.filterMap_append]
      dsimp only
      rw [ih]
      by_cases hdue : job.state.terminal = true ∧
          job.finishedAt.any (fun t => t < now - nanoseconds retentionS) = true
      · have hvisit : (Sweep.start node (.old retentionS) now).visit (clock i) job js = .deleting job js := if_pos hdue
        rw [if_pos hdue, hvisit]
        rfl
      · have hvisit : (Sweep.start node (.old retentionS) now).visit (clock i) job js = .todo js := if_neg hdue
        rw [if_neg hdue, hvisit]
        rfl

theorem sweep_stuck (timeoutS : ℤ) (clock : ℕ → ℤ) (i : ℕ) {js : List Job}
    (h : ∀ job ∈ js, Plain job.id job.lastHeartbeat) :
    JobListing.sweep (fun i => visitStuck timeoutS (toRat (seconds (clock 0)) - timeoutS)
        (seconds (clock (2 * i + 1))) (seconds (clock (2 * i + 2)))) i (js.map (recordOf shown)) =
      ((marks timeoutS clock i js).map (recordOf shown), .ok ()) := by
  induction js generalizing i with
  | nil => rfl
  | cons job js ih =>
      rw [List.map_cons, JobListing.sweep, visitStuck_recordOf _ _ _ _ (h job List.mem_cons_self), marks]
      dsimp only
      rw [ih (i + 1) fun j hj => h j (List.mem_cons_of_mem job hj)]
      split_ifs <;> rfl

/-- Where the two readings at a job agree, the records are those of the model. -/
theorem marks_calls (timeoutS : ℤ) {clock : ℕ → ℤ} (h : ∀ i, clock (2 * i + 1) = clock (2 * i + 2)) (node : String)
    (i : ℕ) (js : List Job) : (marks timeoutS clock i js).map .put =
      calls (.start node (.stuckRunning timeoutS) (clock 0)) (fun i => clock (2 * i + 1)) i js := by
  induction js generalizing i with
  | nil => rfl
  | cons job js ih =>
      rw [marks, calls]
      by_cases hstale : job.state = .running ∧ job.stale (clock 0 - nanoseconds timeoutS) = true
      · have hvisit : (Sweep.start node (.stuckRunning timeoutS) (clock 0)).visit (clock (2 * i + 1)) job js =
            .marking (job.markFailed timeoutS (clock (2 * i + 1))) js := if_pos hstale
        rw [if_pos hstale, List.map_cons, ih, ← h i, hvisit]
        rfl
      · have hvisit : (Sweep.start node (.stuckRunning timeoutS) (clock 0)).visit (clock (2 * i + 1)) job js =
            .todo js := if_neg hstale
        rw [if_neg hstale, ih, hvisit]
        rfl

end Texts

/-! ## Runs -/

/-- The request that etcd executes in a step. -/
def executed (w : World) : Act → Option Request
  | .ownerAttempt id .answered => ((w.owners.get id).bind Jobs.Owner.call).map .put
  | .flushAttempt id .answered => ((w.owners.get id).bind fun o => o.flusher.puts.head?).map .put
  | .sweepAttempt sid .answered => (w.sweeps.get sid).bind Sweep.call
  | .land k => w.strays[k]?
  | _ => none

/-- The requests that etcd executes in a run, in their order. -/
def served : World → List Act → List Request
  | _, [] => []
  | w, a :: as => (executed w a).toList ++ (Jobs.step w a).elim [] fun v => served v as

/-- What the program gets from the texts is what the model gets from the jobs. -/
structure Refines (shown : ℚ → Decimal) (kv : OrderedMap String String) (jobs : OrderedMap String Job) : Prop where
  fetched : ∀ id, getJob kv id = .ok ((jobs.get id).map (recordOf shown))
  listed : ∀ state : Option String, listJobs state (withPrefix JOBS_PREFIX kv) =
    .ok ((sortedJobs ((valuesOf jobs).filter fun j => state.all fun s => stateText j.state = s)).map (recordOf shown))
  pruned : ∀ (retentionS now : ℤ) (node : String) (clock : ℕ → ℤ),
    pruneOld retentionS (seconds now) (withPrefix JOBS_PREFIX kv) =
      ((calls (.start node (.old retentionS) now) clock 0 (sortedJobs (valuesOf jobs))).filterMap deletedId, .ok ())
  swept : ∀ (timeoutS : ℤ) (clock : ℕ → ℤ),
    pruneStuckRunning timeoutS (fun n => seconds (clock n)) (withPrefix JOBS_PREFIX kv) =
        ((marks timeoutS clock 0 (sortedJobs (valuesOf jobs))).map (recordOf shown), .ok ()) ∧
      ((∀ i, clock (2 * i + 1) = clock (2 * i + 2)) → ∀ node : String,
        (marks timeoutS clock 0 (sortedJobs (valuesOf jobs))).map .put =
          calls (.start node (.stuckRunning timeoutS) (clock 0)) (fun i => clock (2 * i + 1)) 0
            (sortedJobs (valuesOf jobs)))

section Runs

variable {shown : ℚ → Decimal} {kv : OrderedMap String String} {jobs : OrderedMap String Job} {w v : World}

theorem mem_valuesOf {job : Job} (h : job ∈ sortedJobs (valuesOf jobs)) : ∃ id, jobs.get id = some job := by
  rw [sortedJobs, List.mem_insertionSort, valuesOf, List.mem_map] at h
  obtain ⟨e, he, rfl⟩ := h
  exact ⟨e.1, OrderedMap.mem_entries.mp he⟩

theorem refines_of_stored (h : Stored shown kv jobs)
    (hplain : ∀ id job, jobs.get id = some job → job.id = id ∧ Plain job.id job.lastHeartbeat) :
    Refines shown kv jobs := by
  have hids : ∀ id job, jobs.get id = some job → '/' ∉ id.toList := by
    intro id job hjob
    obtain ⟨hid, hslash, -⟩ := hplain id job hjob
    exact hid ▸ hslash
  have hall : ∀ js : List Job, (js.filter fun j => (none : Option String).all fun s => stateText j.state = s) = js :=
    fun js => List.filter_eq_self.mpr fun _ _ => rfl
  have hlist := listJobs_stored h hids none
  rw [hall] at hlist
  refine ⟨fun id => ?_, listJobs_stored h hids, fun retentionS now node clock => ?_, fun timeoutS clock => ?_⟩
  · rw [getJob, h id]
    cases jobs.get id with
    | none => rfl
    | some job =>
        rw [Option.map_some, Option.map_some]
        dsimp only
        rw [fromJson_toJson]
  · rw [pruneOld, hlist]
    exact sweep_old now retentionS 0 _ node clock
  · refine ⟨?_, fun hclock node => marks_calls timeoutS hclock node 0 _⟩
    rw [pruneStuckRunning, hlist]
    apply sweep_stuck
    intro job hjob
    obtain ⟨id, hid⟩ := mem_valuesOf hjob
    exact (hplain id job hid).2

/-- A step leaves etcd with what the executed request leaves. -/
theorem store_executed {a : Act} (h : Jobs.step w a = some v) :
    v.store = (executed w a).elim w.store fun q => (Jobs.serve w.store q).1 := by
  cases a with
  | ownerAttempt id a =>
      simp only [Jobs.step, Option.bind_eq_bind, Option.bind_eq_some_iff, Option.some.injEq] at h
      obtain ⟨o, ho, job, hcall, rfl⟩ := h
      cases a <;> simp [executed, ho, hcall, attemptLate_state, after]
  | flushAttempt id a =>
      simp only [Jobs.step, Option.bind_eq_bind, Option.bind_eq_some_iff] at h
      obtain ⟨o, ho, h⟩ := h
      split at h
      · next record tries hf =>
          cases h
          cases a <;> simp [executed, ho, hf, Jobs.FlusherPc.puts, attemptLate_state, after]
      · cases h
      · cases h
  | sweepAttempt sid a =>
      simp only [Jobs.step, Option.bind_eq_bind, Option.bind_eq_some_iff, Option.some.injEq] at h
      obtain ⟨s, hget, q, hcall, rfl⟩ := h
      cases a <;> simp [executed, hget, hcall, attemptLate_state, after]
  | land k =>
      simp only [Jobs.step, Option.bind_eq_bind, Option.bind_eq_some_iff, Option.some.injEq] at h
      obtain ⟨q, hq, rfl⟩ := h
      simp [executed, hq]
  | create id node type params isLeader now =>
      simp only [Jobs.step] at h
      split_ifs at h
      cases h
      rfl
  | startSweep sid node kind now =>
      simp only [Jobs.step] at h
      split_ifs at h
      cases h
      rfl
  | owner id l =>
      simp only [Jobs.step, Option.bind_eq_bind, Option.bind_eq_some_iff, Option.some.injEq] at h
      obtain ⟨o, ho, p, hact, rfl⟩ := h
      rfl
  | sweepNext sid now =>
      simp only [Jobs.step, Option.bind_eq_bind, Option.bind_eq_some_iff, Option.some.injEq] at h
      obtain ⟨s, hget, pc, hnext, rfl⟩ := h
      rfl
  | crash node =>
      cases h
      rfl
  | lose k =>
      cases h
      rfl

/-- The texts follow the jobs through a run. -/
theorem stored_run {as : List Act} (h : Stored shown kv w.store) (hrun : run Jobs.step w as = some v) :
    Stored shown ((served w as).foldl (serveTexts shown) kv) v.store := by
  induction as generalizing w kv with
  | nil =>
      cases hrun
      exact h
  | cons a as ih =>
      obtain ⟨u, hu, hrest⟩ := run_cons.mp hrun
      rw [served, hu, List.foldl_append]
      apply ih _ hrest
      rw [store_executed hu]
      cases executed w a with
      | none => exact h
      | some q => exact stored_serve h q

/-- The id that is given to a new job. -/
def newId : Act → Option String
  | .create id .. => some id
  | _ => none

/-- New ids have no slash, as those of `uuid4` have none, and clocks show floats. -/
def Ordinary (a : Act) : Prop := (∀ now ∈ a.reading, IsFloat now) ∧ ∀ id ∈ newId a, '/' ∉ id.toList

instance (t : ℤ) : Decidable (IsFloat t) :=
  inferInstanceAs (Decidable (-FLOAT_LIMIT < toRat (seconds t) ∧ toRat (seconds t) < FLOAT_LIMIT))

instance (a : Act) : Decidable (Ordinary a) :=
  inferInstanceAs (Decidable ((∀ now ∈ a.reading, IsFloat now) ∧ ∀ id ∈ newId a, '/' ∉ id.toList))

theorem used_of_step {a : Act} (h : Jobs.step w a = some v) {id : String} (hid : id ∈ v.usedIds) :
    id ∈ w.usedIds ∨ id ∈ newId a := by
  cases a with
  | create k node type params isLeader now =>
      simp only [Jobs.step] at h
      split_ifs at h
      cases h
      rcases List.mem_cons.mp hid with rfl | hold
      · exact .inr rfl
      · exact .inl hold
  | flushAttempt k a =>
      simp only [Jobs.step, Option.bind_eq_bind, Option.bind_eq_some_iff] at h
      obtain ⟨o, -, h⟩ := h
      split at h <;> cases h
      exact .inl hid
  | startSweep sid node kind now =>
      simp only [Jobs.step] at h
      split_ifs at h
      cases h
      exact .inl hid
  | crash node =>
      cases h
      exact .inl hid
  | lose k =>
      cases h
      exact .inl hid
  | _ =>
      simp only [Jobs.step, Option.bind_eq_bind, Option.bind_eq_some_iff, Option.some.injEq] at h
      grind

theorem plain_step {a : Act} (hsound : Jobs.Sound w) (h : w.Holds Plain) (ha : Ordinary a)
    (hstep : Jobs.step w a = some v) : v.Holds Plain := by
  apply Jobs.holds_step (fun id o ho => (hsound.owners id o ho).ok) h _ _ hstep
  · intro now hnow id b hid
    refine ⟨hid.1, ?_⟩
    intro t ht
    cases ht
    exact ha.1 now hnow
  · intro id hused hfresh
    refine ⟨?_, by simp⟩
    rcases used_of_step hstep hused with hold | hnew
    · exact absurd hold hfresh
    · exact ha.2 id hnew

theorem sound_initial (h : Jobs.Initial w) (hended : ∀ id job, w.store.get id = some job → Jobs.Ended job) :
    Jobs.Sound w := by
  refine ⟨fun id o ho => ?_, fun r hr => ?_, fun sid s hs => ?_, hended⟩
  · rw [h.owners] at ho
    cases ho
  · rw [h.strays] at hr
    cases hr
  · rw [h.sweeps] at hs
    cases hs

theorem plain_initial (h : Jobs.Initial w) (hplain : ∀ id job, w.store.get id = some job → Plain id job.lastHeartbeat) :
    w.Holds Plain := by
  refine ⟨fun id job hjob => ?_, fun r hr => ?_, fun id o ho => ?_, fun sid s hs => ?_⟩
  · have hid := (h.keyed id job hjob).1
    exact ⟨hid, hid ▸ hplain id job hjob⟩
  · rw [h.strays] at hr
    cases hr
  · rw [h.owners] at ho
    cases ho
  · rw [h.sweeps] at hs
    cases hs

theorem kept_run {as : List Act} (hsound : Jobs.Sound w) (hplain : w.Holds Plain) (hacts : ∀ a ∈ as, Ordinary a)
    (hrun : run Jobs.step w as = some v) : Jobs.Sound v ∧ v.Holds Plain := by
  induction as generalizing w with
  | nil =>
      cases hrun
      exact ⟨hsound, hplain⟩
  | cons a as ih =>
      obtain ⟨u, hu, hrest⟩ := run_cons.mp hrun
      exact ih (Jobs.sound_step hsound hu) (plain_step hsound hplain (hacts a List.mem_cons_self) hu)
        (fun b hb => hacts b (List.mem_cons_of_mem a hb)) hrest

/-- After every run the program reads from the texts in etcd what the model reads from its
jobs. -/
theorem texts_refine {as : List Act} (h : Jobs.Initial w)
    (hjobs : ∀ id job, w.store.get id = some job → Jobs.Ended job ∧ Plain id job.lastHeartbeat)
    (hacts : ∀ a ∈ as, Ordinary a) (hkv : Stored shown kv w.store) (hrun : run Jobs.step w as = some v) :
    Refines shown ((served w as).foldl (serveTexts shown) kv) v.store := by
  have hinv := kept_run (sound_initial h fun id job hjob => (hjobs id job hjob).1)
    (plain_initial h fun id job hjob => (hjobs id job hjob).2) hacts hrun
  exact refines_of_stored (stored_run hkv hrun) hinv.2.stored

end Runs

/-- The worker of a job has started when a sweep of another daemon lists the jobs. -/
def sweptRun : List Act := Jobs.startedRun ++ Jobs.sweepRun (nanoseconds 90)

/-- A progress with one fraction digit, such as `0.0` and `0.5`. -/
def tenths (progress : ℚ) : Decimal := ⟨(progress * 10).floor, 0⟩

theorem texts_refine_swept : ∃ v, run Jobs.step Jobs.noJobs sweptRun = some v ∧
    Refines tenths ((served Jobs.noJobs sweptRun).foldl (serveTexts tenths) .empty) v.store := by
  have hrun : (run Jobs.step Jobs.noJobs sweptRun).isSome = true := by decide +kernel
  obtain ⟨v, hv⟩ := Option.isSome_iff_exists.mp hrun
  exact ⟨v, hv, texts_refine Jobs.initial_noJobs (fun id job hjob => by cases hjob) (by decide +kernel)
    (fun id => rfl) hv⟩

end MilvusOnprem.JobTexts
