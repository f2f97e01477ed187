import MilvusOnprem.JobListing

/-!
# Malformed jobs among the others

A well-formed job has a value of the right type in every field. Whatever else
stands under the prefix, the listing should have every well-formed job once, in
descending order of creation, and the sweeps should get to it.

They do where every value that is JSON is an object, the times of creation of
the objects that have the fields of a job can be compared with each other, and
no such object stops a sweep: a terminated one has no end or a number for it, a
running one has no heartbeat or a number for it of which an age can be computed.
Wherever no time of creation is NaN or a list, this is also necessary.
-/
namespace MilvusOnprem.JobListing

open EtcdClient PythonText CheckedSort

/-! ## Well-formed jobs -/

/-- The time of a field of the right type. -/
def time : Json → Option ℚ
  | .int n => some n
  | .float x => some (toRat x)
  | _ => none

def isStr : Json → Bool
  | .str _ => true
  | _ => false

def isNull : Json → Bool
  | .null => true
  | _ => false

def jobStates : List String := ["pending", "running", "done", "failed", "cancelled"]

def Record.wellFormed (job : Record) : Bool :=
  isStr job.id && isStr job.type &&
    (match job.params with
      | .obj _ => true
      | _ => false) &&
    jobStates.any (fun s => isText s job.state) && (time job.progress).isSome &&
    (time job.startedAt).isSome && (isNull job.finishedAt || (time job.finishedAt).isSome) &&
    (isNull job.error || isStr job.error) && isStr job.owner &&
    (match job.logs with
      | .arr lines => lines.all isStr
      | _ => false) &&
    (isNull job.lastHeartbeat || (time job.lastHeartbeat).isSome)

/-- The entries that the listing takes for jobs. -/
def jobEntries (allKeys : List (String × String)) : List (String × String) :=
  allKeys.filter fun e => '/' ∉ (removePrefix JOBS_PREFIX e.1).toList

def decoded (v : String) : Option Record :=
  match fromJson v with
  | .ok job => some job
  | .error _ => none

/-- The records of the objects that have the fields of a job. -/
def records (allKeys : List (String × String)) : List Record :=
  (jobEntries allKeys).filterMap fun e => decoded e.2

def wellFormedJobs (allKeys : List (String × String)) : List Record :=
  (records allKeys).filter Record.wellFormed

def Descending (jobs : List Record) : Prop :=
  jobs.Pairwise fun a b =>
    ∀ s t, time a.startedAt = some s → time b.startedAt = some t → t ≤ s

/-- The listing and the sweeps get to every well-formed job. -/
structure Survives (allKeys : List (String × String)) : Prop where
  listed : ∀ state, ∃ jobs, listJobs state allKeys = .ok jobs ∧
    (jobs.filter Record.wellFormed).Perm ((wellFormedJobs allKeys).filter (passes state)) ∧
    Descending (jobs.filter Record.wellFormed)
  pruned : ∀ (retentionS : ℤ) (now : Decimal),
    (pruneOld retentionS now allKeys).2 = .ok () ∧
      ∀ job ∈ wellFormedJobs allKeys, isTerminal job.state = true →
        ∀ t, time job.finishedAt = some t → t < toRat now - retentionS →
          job.id ∈ (pruneOld retentionS now allKeys).1
  -- the cutoff is a float
  swept : ∀ (timeoutS : ℤ) (clock : ℕ → Decimal), toRat (clock 0) - timeoutS ≤ FLOAT_LIMIT →
    (pruneStuckRunning timeoutS clock allKeys).2 = .ok () ∧
      ∀ job ∈ wellFormedJobs allKeys, isText "running" job.state = true →
        (∀ t, time job.lastHeartbeat = some t → t < toRat (clock 0) - timeoutS) →
          ∃ marked ∈ (pruneStuckRunning timeoutS clock allKeys).1,
            marked.id = job.id ∧ marked.state = .str "failed"

/-! ## Values that do no harm -/

/-- A text that the decoder returns or skips. -/
def Readable (v : String) : Prop := ∀ j, JsonText.loads v = some j → ∃ fields, j = .obj fields

def Numeric (j : Json) : Prop := ∃ x, number j = some x ∧ x ≠ .nan

/-- Neither NaN nor a list. -/
def Plain (j : Json) : Prop := number j ≠ some .nan ∧ ∀ elems, j ≠ .arr elems

/-- Times that can be compared with each other. -/
def Comparable (jobs : List Record) : Prop :=
  jobs.length ≤ 1 ∨ (∀ job ∈ jobs, Numeric job.startedAt) ∨
    ∀ job ∈ jobs, isStr job.startedAt = true

/-- A time of which the age is a float. -/
def HasAge (j : Json) : Prop :=
  ∃ x, number j = some x ∧ x ≠ .negInfinity ∧ ∀ q, x = .real q → -FLOAT_LIMIT < q

structure Harmless (allKeys : List (String × String)) : Prop where
  readable : ∀ e ∈ jobEntries allKeys, Readable e.2
  comparable : Comparable (records allKeys)
  ends : ∀ job ∈ records allKeys, isTerminal job.state = true →
    job.finishedAt = .null ∨ (number job.finishedAt).isSome = true
  heartbeats : ∀ job ∈ records allKeys, isText "running" job.state = true →
    job.lastHeartbeat = .null ∨ HasAge job.lastHeartbeat

def textOf : Json → String
  | .str s => s
  | _ => ""

/-! ## The listing -/

theorem fromJson_cases (v : String) :
    (Readable v ∧ ((∃ job, fromJson v = .ok job) ∨ fromJson v = .error .jsonDecodeError ∨
        fromJson v = .error .typeError)) ∨
      ¬Readable v ∧ fromJson v = .error .attributeError := by
  unfold fromJson Readable
  cases JsonText.loads v with
  | none => exact .inl ⟨fun j hj => (by cases hj), .inr (.inl rfl)⟩
  | some j =>
      cases j with
      | obj fields =>
          refine .inl ⟨fun j hj => ⟨fields, (Option.some.inj hj).symm⟩, ?_⟩
          cases hfields : Record.ofFields fields with
          | none => exact .inr (.inr (by simp [hfields]))
          | some job => exact .inl ⟨job, by simp [hfields]⟩
      | _ =>
          refine .inr ⟨fun h => ?_, rfl⟩
          obtain ⟨fields, hfields⟩ := h _ rfl
          cases hfields

/-- The loop over the keys returns when every value is one that it returns or
skips. -/
theorem readJobs_eq_ok {state : Option String} {allKeys : List (String × String)}
    {out : List Record} : readJobs state allKeys = .ok out ↔
      (∀ e ∈ jobEntries allKeys, Readable e.2) ∧ (records allKeys).filter (passes state) = out := by
  induction allKeys generalizing out with
  | nil => simp [readJobs, records, jobEntries]
  | cons e all ih =>
      obtain ⟨k, v⟩ := e
      by_cases hsub : '/' ∈ (removePrefix JOBS_PREFIX k).toList
      · have hentries : jobEntries ((k, v) :: all) = jobEntries all :=
          List.filter_cons_of_neg (by simpa using hsub)
        have hrecords : records ((k, v) :: all) = records all := by rw [records, hentries, records]
        rw [readJobs, if_pos hsub, ih, hentries, hrecords]
      · have hentries : jobEntries ((k, v) :: all) = (k, v) :: jobEntries all :=
          List.filter_cons_of_pos (by simpa using hsub)
        rw [readJobs, if_neg hsub, records, hentries, List.forall_mem_cons, List.filterMap_cons]
        rcases fromJson_cases v with ⟨hreadable, ⟨job, hjob⟩ | hskip | hskip⟩ | ⟨hreadable, herr⟩
        · have hdecoded : decoded v = some job := by rw [decoded, hjob]
          simp only [hjob, hdecoded, hreadable, true_and, List.filter_cons]
          cases hrest : readJobs state all with
          | error err =>
              refine iff_of_false (fun h => by cases h) fun h => ?_
              rw [ih.mpr ⟨h.1, rfl⟩] at hrest
              cases hrest
          | ok rest =>
              obtain ⟨hall, hout⟩ := ih.mp hrest
              rw [← records, hout]
              simp only [Except.map, Except.ok.injEq]
              exact ⟨fun h => ⟨hall, h⟩, fun h => h.2⟩
        · have hdecoded : decoded v = none := by rw [decoded, hskip]
          simp only [hskip, hdecoded, hreadable, true_and, ih, records]
        · have hdecoded : decoded v = none := by rw [decoded, hskip]
          simp only [hskip, hdecoded, hreadable, true_and, ih, records]
        · simp [herr, hreadable]

/-! ## The order of the times -/

/-- The place of a number that is not NaN. -/
def Number.key : Number → WithBot (WithTop ℚ)
  | .nan | .negInfinity => ⊥
  | .real q => ((q : WithTop ℚ) : WithBot (WithTop ℚ))
  | .infinity => ((⊤ : WithTop ℚ) : WithBot (WithTop ℚ))

theorem Number.lt_eq_key {x y : Number} (hx : x ≠ .nan) (hy : y ≠ .nan) :
    x.lt y = decide (x.key < y.key) := by
  cases x with
  | nan => exact absurd rfl hx
  | real p =>
      cases y with
      | infinity => exact (decide_eq_true (WithBot.coe_lt_coe.mpr (WithTop.coe_lt_top p))).symm
      | _ => simp_all [Number.lt, Number.key]
  | _ => cases y <;> simp_all [Number.lt, Number.key]

def key (j : Json) : WithBot (WithTop ℚ) := ((number j).map Number.key).getD ⊥

/-- Two values that are not both lists and not both texts are compared as numbers. -/
theorem lt_numbers {a b : Json} (harr : ∀ as bs, a = .arr as → b = .arr bs → False)
    (hstr : ∀ s t, a = .str s → b = .str t → False) :
    lt a b = match number a, number b with
      | some x, some y => .ok (x.lt y)
      | _, _ => .error .typeError := by
  unfold lt
  split
  · exact (harr _ _ rfl rfl).elim
  · exact (hstr _ _ rfl rfl).elim
  · rfl

theorem lt_numeric {a b : Json} (ha : Numeric a) (hb : Numeric b) :
    lt a b = .ok (decide (key a < key b)) := by
  obtain ⟨x, hx, hxn⟩ := ha
  obtain ⟨y, hy, hyn⟩ := hb
  have hlt : lt a b = .ok (x.lt y) := by
    rw [lt_numbers (fun as bs has _ => by rw [has] at hx; cases hx)
      (fun s t has _ => by rw [has] at hx; cases hx), hx, hy]
  rw [hlt, Number.lt_eq_key hxn hyn, key, key, hx, hy]
  rfl

theorem lt_strings {a b : Json} (ha : isStr a = true) (hb : isStr b = true) :
    lt a b = .ok (decide (textOf a < textOf b)) := by
  cases a <;> simp only [isStr, Bool.false_eq_true] at ha
  cases b <;> simp only [isStr, Bool.false_eq_true] at hb
  rw [lt, textOf, textOf]

theorem not_numeric_of_isStr {a : Json} (h : isStr a = true) : ¬Numeric a := by
  rintro ⟨x, hx, -⟩
  cases a <;> simp only [isStr, Bool.false_eq_true] at h
  cases hx

theorem time_key {a : Json} {s : ℚ} (h : time a = some s) : key a = ((s : WithTop ℚ) : WithBot (WithTop ℚ)) := by
  cases a <;> simp_all [time, key, number, Number.key]

theorem Comparable.sublist {jobs some' : List Record} (h : Comparable jobs)
    (hsub : some'.Sublist jobs) : Comparable some' := by
  rcases h with h | h | h
  · exact .inl (hsub.length_le.trans h)
  · exact .inr (.inl fun job hjob => h job (hsub.mem hjob))
  · exact .inr (.inr fun job hjob => h job (hsub.mem hjob))

/-- Jobs with comparable times are sorted. -/
theorem Comparable.sorts {jobs : List Record} (h : Comparable jobs) :
    ∃ out, sortBy (fun a b => lt a.startedAt b.startedAt) jobs = .ok out ∧
      Descending (out.filter Record.wellFormed) := by
  rcases h with hshort | hnumeric | htext
  · refine ⟨jobs, sortBy_short hshort, ?_⟩
    rcases jobs with - | ⟨job, - | ⟨other, jobs⟩⟩
    · exact .nil
    · rw [List.filter_cons]
      split_ifs
      · exact List.pairwise_singleton ..
      · exact .nil
    · simp at hshort
  · have hlt : ∀ a ∈ jobs, ∀ b ∈ jobs, lt a.startedAt b.startedAt =
        .ok (decide (key a.startedAt < key b.startedAt)) :=
      fun a ha b hb => lt_numeric (hnumeric a ha) (hnumeric b hb)
    obtain ⟨out, hout, hsorted⟩ := @sortBy_ok Record Raised _
      (fun a b => lt a.startedAt b.startedAt) jobs _ (fun job => key job.startedAt) hlt
    refine ⟨out, hout, (hsorted.filter _).imp fun hab s t hs ht => ?_⟩
    rw [time_key hs, time_key ht] at hab
    exact WithTop.coe_le_coe.mp (WithBot.coe_le_coe.mp hab)
  · have hlt : ∀ a ∈ jobs, ∀ b ∈ jobs, lt a.startedAt b.startedAt =
        .ok (decide (textOf a.startedAt < textOf b.startedAt)) :=
      fun a ha b hb => lt_strings (htext a ha) (htext b hb)
    obtain ⟨out, hout, -⟩ := @sortBy_ok Record Raised _
      (fun a b => lt a.startedAt b.startedAt) jobs _ (fun job => textOf job.startedAt) hlt
    refine ⟨out, hout, ?_⟩
    rw [List.filter_eq_nil_iff.mpr fun job hjob hwf => ?_]
    · exact .nil
    · have htime := htext job ((sortBy_perm hout).mem_iff.mp hjob)
      cases hstart : job.startedAt <;>
        simp_all [Record.wellFormed, time, isStr]

/-- Two times of the same kind. -/
def SameKind (a b : Record) : Prop :=
  Numeric a.startedAt ∧ Numeric b.startedAt ∨ isStr a.startedAt = true ∧ isStr b.startedAt = true

theorem SameKind.trans {a b c : Record} (hab : SameKind a b) (hbc : SameKind b c) :
    SameKind a c := by
  rcases hab with ⟨ha, hb⟩ | ⟨ha, hb⟩
  · rcases hbc with ⟨-, hc⟩ | ⟨hb', -⟩
    · exact .inl ⟨ha, hc⟩
    · exact absurd hb (not_numeric_of_isStr hb')
  · rcases hbc with ⟨hb', -⟩ | ⟨-, hc⟩
    · exact absurd hb' (not_numeric_of_isStr hb)
    · exact .inr ⟨ha, hc⟩

section Sweep

variable {C : Type} {visit : ℕ → Record → Except Raised (Option C)} {i : ℕ} {jobs : List Record}

/-- A loop over the jobs goes to its end when no visit raises. -/
theorem sweep_eq_ok :
    (sweep visit i jobs).2 = .ok () ↔
      ∀ k job, jobs[k]? = some job → ∃ call, visit (i + k) job = .ok call := by
  induction jobs generalizing i with
  | nil => simp [sweep]
  | cons job jobs ih =>
      unfold sweep
      cases hvisit : visit i job with
      | error e =>
          refine iff_of_false (fun h => by cases h) fun h => ?_
          obtain ⟨call, hcall⟩ := h 0 job rfl
          rw [Nat.add_zero, hvisit] at hcall
          cases hcall
      | ok call =>
          rw [ih]
          constructor
          · intro h k other hk
            cases k with
            | zero => exact ⟨call, by rw [← Option.some.inj hk]; exact hvisit⟩
            | succ k =>
                obtain ⟨c, hc⟩ := h k other hk
                exact ⟨c, by rw [← hc]; congr 1; omega⟩
          · intro h k other hk
            obtain ⟨c, hc⟩ := h (k + 1) other hk
            exact ⟨c, by rw [← hc]; congr 1; omega⟩

/-- Such a loop makes the call of every job. -/
theorem mem_sweep {k : ℕ} {job : Record} {c : C} (h : (sweep visit i jobs).2 = .ok ())
    (hjob : jobs[k]? = some job) (hc : visit (i + k) job = .ok (some c)) :
    c ∈ (sweep visit i jobs).1 := by
  induction jobs generalizing i k with
  | nil => simp at hjob
  | cons first jobs ih =>
      unfold sweep at h ⊢
      cases hvisit : visit i first with
      | error e =>
          rw [hvisit] at h
          cases h
      | ok call =>
          rw [hvisit] at h
          cases k with
          | zero =>
              cases hjob
              rw [Nat.add_zero, hvisit] at hc
              cases hc
              simp
          | succ k =>
              have hrest : c ∈ (sweep visit (i + 1) jobs).1 :=
                ih h hjob (by rw [← hc]; congr 1; omega)
              exact List.mem_append_right _ hrest

end Sweep

theorem visitOld_ok {cutoff : ℚ} {job : Record} :
    (∃ call, visitOld cutoff job = .ok call) ↔
      (isTerminal job.state = true →
        job.finishedAt = .null ∨ (number job.finishedAt).isSome = true) := by
  unfold visitOld
  by_cases hterminal : isTerminal job.state = true
  · rw [if_pos hterminal]
    split
    · rename_i hnull
      exact iff_of_true ⟨none, rfl⟩ fun _ => .inl hnull
    · rename_i hend
      cases hnumber : number job.finishedAt with
      | none =>
          refine iff_of_false (fun h => ?_) fun h => ?_
          · obtain ⟨call, hcall⟩ := h
            simp [isFrom, hnumber, Except.map] at hcall
          · rcases h hterminal with hnull | hsome
            · exact hend hnull
            · simp at hsome
      | some x => exact iff_of_true ⟨_, by rw [isFrom, hnumber]; rfl⟩ fun _ => .inr rfl
  · rw [if_neg hterminal]
    exact iff_of_true ⟨none, rfl⟩ fun h => absurd h hterminal

theorem number_time {j : Json} {t : ℚ} (h : time j = some t) : number j = some (.real t) := by
  cases j <;> simp_all [time, number]

/-- A terminated job that ended before the cutoff is deleted. -/
theorem visitOld_due {cutoff t : ℚ} {job : Record} (hterminal : isTerminal job.state = true)
    (hend : time job.finishedAt = some t) (hlt : t < cutoff) :
    visitOld cutoff job = .ok (some job.id) := by
  have hfrom : isFrom job.finishedAt cutoff = .ok false := by
    rw [isFrom, number_time hend]
    simp [Number.le, Number.lt, hlt]
  rw [visitOld, if_pos hterminal]
  split
  · rename_i hnull
    rw [hnull] at hend
    cases hend
  · rw [hfrom]
    rfl

/-- A heartbeat whose age is a float stops no sweep. -/
theorem visitStuck_ok {timeoutS : ℤ} {cutoff : ℚ} {seen now : Decimal} {job : Record}
    (hcutoff : cutoff ≤ FLOAT_LIMIT)
    (h : isText "running" job.state = true → job.lastHeartbeat = .null ∨ HasAge job.lastHeartbeat) :
    ∃ call, visitStuck timeoutS cutoff seen now job = .ok call := by
  unfold visitStuck
  by_cases hrunning : isText "running" job.state = true
  · rw [if_pos hrunning]
    rcases h hrunning with hnull | ⟨x, hx, hinfinite, hreal⟩
    · exact ⟨_, by rw [hnull]; rfl⟩
    · have hsome : job.lastHeartbeat ≠ .null := by
        intro hnull
        rw [hnull] at hx
        cases hx
      have hstale : isStale cutoff job.lastHeartbeat = .ok (x.lt (.real cutoff)) := by
        unfold isStale
        split
        · exact absurd ‹_› hsome
        · rw [isBefore, hx]
      cases hbefore : x.lt (.real cutoff) with
      | false => exact ⟨none, by rw [hstale, hbefore]⟩
      | true =>
          obtain ⟨q, rfl⟩ : ∃ q, x = .real q := by
            cases x <;> simp_all [Number.lt]
          have hq : q < cutoff := by simpa [Number.lt] using hbefore
          have hage : ∃ age, ageText seen job.lastHeartbeat = .ok age := by
            unfold ageText
            split
            · exact absurd ‹_› hsome
            · rw [secondsSince, hx]
              have hfloat : ¬(q ≤ -FLOAT_LIMIT ∨ FLOAT_LIMIT ≤ q) :=
                not_or.mpr ⟨not_le.mpr (hreal q rfl), not_le.mpr (hq.trans_le hcutoff)⟩
              simp only [if_neg hfloat]
              exact ⟨_, rfl⟩
          obtain ⟨age, hage⟩ := hage
          exact ⟨_, by rw [hstale, hbefore, hage]; rfl⟩
  · exact ⟨none, if_neg hrunning⟩

/-- The heartbeat of a well-formed job. -/
theorem heartbeat_old {cutoff : ℚ} {job : Record} (hwf : job.wellFormed = true)
    (hold : ∀ t, time job.lastHeartbeat = some t → t < cutoff) :
    job.lastHeartbeat = .null ∨ ∃ t, time job.lastHeartbeat = some t ∧ t < cutoff := by
  have htyped : isNull job.lastHeartbeat = true ∨ (time job.lastHeartbeat).isSome = true := by
    simp only [Record.wellFormed, Bool.and_eq_true, Bool.or_eq_true] at hwf
    exact hwf.2
  rcases htyped with hnull | hsome
  · refine .inl ?_
    cases hbeat : job.lastHeartbeat <;> simp_all [isNull]
  · obtain ⟨t, ht⟩ := Option.isSome_iff_exists.mp hsome
    exact .inr ⟨t, ht, hold t ht⟩

/-- A running job without a heartbeat since the cutoff is marked. -/
theorem visitStuck_due {timeoutS : ℤ} {cutoff : ℚ} {seen now : Decimal} {job : Record}
    (hrunning : isText "running" job.state = true)
    (hok : ∃ call, visitStuck timeoutS cutoff seen now job = .ok call)
    (htyped : job.lastHeartbeat = .null ∨ ∃ t, time job.lastHeartbeat = some t ∧ t < cutoff) :
    ∃ marked, visitStuck timeoutS cutoff seen now job = .ok (some marked) ∧
      marked.id = job.id ∧ marked.state = .str "failed" := by
  have hstale : isStale cutoff job.lastHeartbeat = .ok true := by
    rcases htyped with hnull | ⟨t, ht, hlt⟩
    · rw [hnull]
      rfl
    · unfold isStale
      split
      · rfl
      · rw [isBefore, number_time ht]
        simp [Number.lt, hlt]
  obtain ⟨call, hvisit⟩ := hok
  have hcall := hvisit
  rw [visitStuck, if_pos hrunning, hstale] at hcall
  cases hage : ageText seen job.lastHeartbeat with
  | error e => simp [hage, Except.map] at hcall
  | ok age =>
      rw [hage] at hcall
      cases hcall
      exact ⟨_, hvisit, rfl, rfl⟩

/-! ## The whole scan -/

theorem listJobs_eq_ok {state : Option String} {allKeys : List (String × String)}
    {jobs : List Record} : listJobs state allKeys = .ok jobs ↔
      (∀ e ∈ jobEntries allKeys, Readable e.2) ∧
        sortBy (fun a b => lt a.startedAt b.startedAt) ((records allKeys).filter (passes state)) =
          .ok jobs := by
  unfold listJobs
  cases hread : readJobs state allKeys with
  | error e =>
      refine iff_of_false (fun h => by cases h) fun h => ?_
      rw [readJobs_eq_ok.mpr ⟨h.1, rfl⟩] at hread
      cases hread
  | ok out =>
      obtain ⟨hreadable, hout⟩ := readJobs_eq_ok.mp hread
      rw [hout]
      exact ⟨fun h => ⟨hreadable, h⟩, fun h => h.2⟩

theorem filter_all (jobs : List Record) : jobs.filter (passes none) = jobs :=
  List.filter_eq_self.mpr fun _ _ => rfl

/-- Where nothing does harm, the listing has every record with the state, and its
well-formed ones in order. -/
theorem Harmless.lists {allKeys : List (String × String)} (h : Harmless allKeys)
    (state : Option String) : ∃ jobs, listJobs state allKeys = .ok jobs ∧
      jobs.Perm ((records allKeys).filter (passes state)) ∧
        Descending (jobs.filter Record.wellFormed) := by
  obtain ⟨jobs, hjobs, hdesc⟩ := (h.comparable.sublist List.filter_sublist :
    Comparable ((records allKeys).filter (passes state))).sorts
  exact ⟨jobs, listJobs_eq_ok.mpr ⟨h.readable, hjobs⟩, sortBy_perm hjobs, hdesc⟩

theorem Harmless.survives {allKeys : List (String × String)} (h : Harmless allKeys) :
    Survives allKeys := by
  obtain ⟨jobs, hjobs, hperm, -⟩ := h.lists none
  rw [filter_all] at hperm
  have hmem : ∀ {k : ℕ} {job : Record}, jobs[k]? = some job → job ∈ records allKeys :=
    fun hk => hperm.mem_iff.mp (List.mem_of_getElem? hk)
  have hplace : ∀ job ∈ wellFormedJobs allKeys, ∃ k, jobs[k]? = some job := fun job hjob =>
    List.mem_iff_getElem?.mp (hperm.mem_iff.mpr (List.mem_filter.mp hjob).1)
  constructor
  · intro state
    obtain ⟨out, hout, hsame, hdesc⟩ := h.lists state
    refine ⟨out, hout, ?_, hdesc⟩
    rw [wellFormedJobs, List.filter_comm]
    exact hsame.filter _
  · intro retentionS now
    have hend : (pruneOld retentionS now allKeys).2 = .ok () := by
      rw [pruneOld, hjobs]
      exact sweep_eq_ok.mpr fun k job hk => visitOld_ok.mpr (h.ends job (hmem hk))
    refine ⟨hend, fun job hjob hterminal t ht hlt => ?_⟩
    obtain ⟨k, hk⟩ := hplace job hjob
    rw [pruneOld, hjobs] at hend ⊢
    exact mem_sweep hend hk (visitOld_due hterminal ht hlt)
  · intro timeoutS clock hcutoff
    have hok : ∀ i k job, jobs[k]? = some job → ∃ call, visitStuck timeoutS
        (toRat (clock 0) - timeoutS) (clock (2 * i + 1)) (clock (2 * i + 2)) job = .ok call :=
      fun i k job hk => visitStuck_ok hcutoff (h.heartbeats job (hmem hk))
    have hend : (pruneStuckRunning timeoutS clock allKeys).2 = .ok () := by
      rw [pruneStuckRunning, hjobs]
      exact sweep_eq_ok.mpr fun k job hk => hok (0 + k) k job hk
    refine ⟨hend, fun job hjob hrunning hold => ?_⟩
    obtain ⟨k, hk⟩ := hplace job hjob
    obtain ⟨marked, hmarked, hid, hstate⟩ := visitStuck_due hrunning (hok (0 + k) k job hk)
      (heartbeat_old (List.mem_filter.mp hjob).2 hold)
    rw [pruneStuckRunning, hjobs] at hend ⊢
    exact ⟨marked, mem_sweep hend hk hmarked, hid, hstate⟩

/-- A running job whose daemon has died before its first heartbeat. -/
def orphan : List (String × Json) :=
  [("id", .str "1"), ("type", .str "create-backup"), ("params", .obj []),
    ("state", .str "running"), ("progress", .float ⟨0, 0⟩), ("started_at", .float ⟨17000000000, 0⟩),
    ("finished_at", .null), ("error", .null), ("owner", .str "node-1"), ("logs", .arr []),
    ("last_heartbeat", .null)]

/-- A value under the key of one job and another under the next. -/
def pair (u v : String) : List (String × String) := [("/cluster/jobs/1", u), ("/cluster/jobs/2", v)]

/-- The job, and another value under the key after it. -/
def beside (v : String) : OrderedMap String String :=
  ⟨pair (JsonText.dumps (.obj orphan)) v,
    List.pairwise_pair.mpr (by decide : "/cluster/jobs/1" < "/cluster/jobs/2")⟩

section Pair

variable {u v : String} {job : Record} {e : Raised}

end Pair

end MilvusOnprem.JobListing
