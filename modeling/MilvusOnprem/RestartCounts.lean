import MilvusOnprem.LocalWatchdog

/-!
# How often a container is restarted

The watchdog counts the restarts of a container in a history that it clears only
when a halted container is seen healthy or a halted name is missing from a
listing. The count is compared with the restarts since the container was last
seen healthy.
-/
namespace MilvusOnprem.RestartCounts

open GuardedRuns LocalWatchdog

variable {c : LocalConfig} {w v : World} {act : Act}

theorem config_step (hs : step w act = some v) : v.config = w.config := by
  unfold step at hs
  split at hs <;> split at hs <;> cases hs <;> rfl

/-! ## What the lines say -/

/-- A restart has the next number since the container was last seen healthy, and a
halt comes after the full number of restarts. -/
def LineRight (c : LocalConfig) (since : String → ℕ) : Line → Prop
  | .componentRestart _ name attempt => attempt = since name + 1
  | .componentRestartLoop _ name _ => c.restartLoopMax ≤ since name

/-- The history of a container is cleared when the restarts since it was last
seen healthy start anew, and at no other time: a healthy row finds a halted
container or no restarts, a failed listing no halted container with restarts, and
a container that is gone was halted or had no restarts. -/
def ClearsInTime (w : World) : Act → Prop
  | .visit _ _ =>
      match w.pc with
      | .walking _ (r :: _) _ =>
          r.healthy = true → r.names ∈ w.watch.loopAlerted ∨ w.watch.restartHistory r.names = 0
      | _ => True
  | .cleanup =>
      match w.pc with
      | .walking true [] _ => ∀ n ∈ w.watch.loopAlerted, w.watch.restartHistory n = 0
      | .walking false [] seen =>
          ∀ n, n ∉ seen → n ∈ w.watch.loopAlerted ∨ w.watch.restartHistory n = 0
      | _ => True
  | .listing _ => True

/-- The history is the number of restarts since the container was last seen
healthy, and a halted container has had all of them. -/
structure Exact (c : LocalConfig) (w : World) : Prop where
  config : w.config = c
  history : ∀ n, w.watch.restartHistory n = w.since n
  halted : ∀ n ∈ w.watch.loopAlerted, c.restartLoopMax ≤ w.since n

theorem exact_start (c : LocalConfig) : Exact c (start c) :=
  ⟨rfl, fun _ => rfl, fun _ h => absurd h List.not_mem_nil⟩

theorem since_kept {r : Row} {o : Outcome} (hhealthy : r.healthy = false)
    (hcalls : ¬(callsRestart w.watch w.config r = true ∧ o = .ok)) :
    w.sinceAfter r o = w.since := by
  rw [World.sinceAfter, if_neg (Bool.eq_false_iff.mp hhealthy), if_neg hcalls]

theorem since_healthy {r : Row} {o : Outcome} (hhealthy : r.healthy = true) :
    w.sinceAfter r o = Function.update w.since r.names 0 := if_pos hhealthy

theorem since_restarted {r : Row} {o : Outcome} (hhealthy : r.healthy = false)
    (hcalls : callsRestart w.watch w.config r = true) (hok : o = .ok) :
    w.sinceAfter r o = Function.update w.since r.names (w.since r.names + 1) := by
  rw [World.sinceAfter, if_neg (Bool.eq_false_iff.mp hhealthy), if_pos ⟨hcalls, hok⟩]

/-- A row, seen from a watch whose history is right. -/
theorem Exact.visited (h : Exact c w) {r : Row} {now : ℤ} {o : Outcome} {x : Watch × List Line}
    (hclears : r.healthy = true → r.names ∈ w.watch.loopAlerted ∨ w.watch.restartHistory r.names = 0)
    (hx : Visited w.watch w.config now r o x) :
    (∀ n, x.1.restartHistory n = w.sinceAfter r o n) ∧
      (∀ n ∈ x.1.loopAlerted, c.restartLoopMax ≤ w.sinceAfter r o n) ∧
      ∀ line ∈ x.2, LineRight c w.since line := by
  have hmax : w.config.restartLoopMax = c.restartLoopMax := by rw [h.config]
  cases hx with
  | counts hhealthy hcalls hhist halert =>
      rw [since_kept hhealthy (fun hc => Bool.eq_false_iff.mp hcalls hc.1), hhist, halert]
      exact ⟨h.history, h.halted, fun _ hl => absurd hl List.not_mem_nil⟩
  | recovers hhealthy hmem hhist halert =>
      rw [since_healthy hhealthy, hhist, halert]
      refine ⟨fun n => ?_, fun n hn => ?_, fun _ hl => absurd hl List.not_mem_nil⟩
      · by_cases hname : n = r.names
        · rw [hname, Function.update_self, Function.update_self]
        · rw [Function.update_of_ne hname, Function.update_of_ne hname, h.history]
      · obtain ⟨hold, hname⟩ := List.mem_filter.mp hn
        rw [Function.update_of_ne (of_decide_eq_true hname)]
        exact h.halted n hold
  | healthy hhealthy hnot hhist halert =>
      have hzero := (hclears hhealthy).resolve_left hnot
      rw [since_healthy hhealthy, hhist, halert]
      refine ⟨fun n => ?_, fun n hn => ?_, fun _ hl => absurd hl List.not_mem_nil⟩
      · by_cases hname : n = r.names
        · rw [hname, Function.update_self, hzero]
        · rw [Function.update_of_ne hname, h.history]
      · have hne : n ≠ r.names := by
          rintro rfl
          exact hnot hn
        rw [Function.update_of_ne hne]
        exact h.halted n hn
  | halts hhealthy hcalls hreach hhist halert =>
      rw [hmax, h.history] at hreach
      rw [since_kept hhealthy (fun hc => Bool.eq_false_iff.mp hcalls hc.1), hhist, halert]
      refine ⟨h.history, List.forall_mem_cons.mpr ⟨hreach, h.halted⟩, ?_⟩
      rw [List.forall_mem_singleton]
      exact hreach
  | restarts hhealthy hcalls hok hnot hlt hhist halert =>
      rw [since_restarted hhealthy hcalls hok, hhist, halert]
      refine ⟨fun n => ?_, fun n hn => ?_, ?_⟩
      · by_cases hname : n = r.names
        · rw [hname, Function.update_self, Function.update_self, h.history]
        · rw [Function.update_of_ne hname, Function.update_of_ne hname, h.history]
      · have hne : n ≠ r.names := by
          rintro rfl
          exact hnot hn
        rw [Function.update_of_ne hne]
        exact h.halted n hn
      · rw [List.forall_mem_singleton, LineRight, h.history]
  | tries hhealthy hfails hhist halert =>
      rw [since_kept hhealthy (fun hc => hfails hc.2), hhist, halert]
      refine ⟨h.history, h.halted, ?_⟩
      rw [List.forall_mem_singleton, LineRight, h.history]

theorem exact_step (h : Exact c w) (hclears : ClearsInTime w act) (hs : step w act = some v) :
    Exact c v := by
  have hconfig := (config_step hs).trans h.config
  cases act with
  | listing rows =>
      simp only [step] at hs
      split at hs
      · cases hs
        exact ⟨h.config, h.history, h.halted⟩
      · cases hs
  | visit now o =>
      simp only [step] at hs
      split at hs
      · next failed r rest seen hpc =>
          simp only [ClearsInTime, hpc] at hclears
          cases hs
          obtain ⟨hhist, hhalted, -⟩ := h.visited hclears (visited w.watch w.config now r o)
          exact ⟨h.config, hhist, hhalted⟩
      · cases hs
  | cleanup =>
      simp only [step] at hs
      split at hs
      · next failed seen hpc =>
          simp only [ClearsInTime, hpc] at hclears
          cases hs
          cases failed with
          | true =>
              refine ⟨h.config, fun n => ?_, fun n hn => ?_⟩
              · simp only [Watch.cleanup, Bool.true_or, if_true]
                split_ifs with hdrop
                · rw [Bool.and_eq_true, List.contains_iff_mem] at hdrop
                  rw [← h.history, hclears n hdrop.1]
                · exact h.history n
              · exact h.halted n (List.mem_filter.mp hn).1
          | false =>
              simp only [Watch.cleanup, Bool.false_or]
              refine ⟨h.config, fun n => ?_, fun n hn => ?_⟩
              · by_cases hseen : n ∈ seen
                · simp [hseen, h.history]
                · rcases hclears n hseen with halerted | hzero
                  · simp [hseen, halerted]
                  · simp [hseen, hzero]
              · obtain ⟨hold, hseen⟩ := List.mem_filter.mp hn
                change c.restartLoopMax ≤ ((if seen.contains n = true then w.since n else 0 : ℕ) : ℤ)
                rw [if_pos hseen]
                exact h.halted n hold
      · cases hs

/-- What a step prints from an exact history is right. -/
theorem Exact.printed (h : Exact c w) (hclears : ClearsInTime w act) :
    ∀ line ∈ LocalWatchdog.printed w act, LineRight c w.since line := by
  cases act with
  | visit now o =>
      simp only [LocalWatchdog.printed]
      split
      · next failed r rest seen hpc =>
          simp only [ClearsInTime, hpc] at hclears
          exact (h.visited hclears (LocalWatchdog.visited ..)).2.2
      · exact fun _ hl => absurd hl List.not_mem_nil
  | _ => exact fun _ hl => absurd hl List.not_mem_nil

/-- In a run that clears the histories in time, every line is right, and every
halted container has had the full number of restarts since it was last healthy. -/
theorem lines_right {as : List Act} (hkeeps : Keeps step ClearsInTime (start c) as)
    (hr : run step (start c) as = some w) :
    (∀ x ∈ trace step (start c) as, ∀ line ∈ printed x.1 x.2, LineRight c x.1.since line) ∧
      ∀ n ∈ w.watch.loopAlerted, c.restartLoopMax ≤ w.since n := by
  have hstep : ∀ s a t, Exact c s → ClearsInTime s a → step s a = some t → Exact c t :=
    fun s a t hs hg ht => exact_step hs hg ht
  constructor
  · intro x hx
    exact (before_steps hstep (exact_start c) hkeeps hr x hx).printed (keeps_trace hkeeps hr x hx)
  · exact (run_guarded hstep (exact_start c) hkeeps hr).halted

/-- One unhealthy tick suffices, and one restart. -/
def strict : LocalConfig := ⟨"auto", 1, 1⟩

def sick : Row := ⟨"milvus-etcd", "running", "Up (unhealthy)"⟩

def well : Row := ⟨"milvus-etcd", "running", "Up (healthy)"⟩

/-- A tick whose listing has one row. -/
def tickOf (r : Row) : List Act := [.listing (some [r]), .visit 0 .ok, .cleanup]

theorem lines_right_sick : ∃ w, run step (start strict) [.listing (some [sick]), .visit 0 .ok] = some w ∧
    (∀ x ∈ trace step (start strict) [.listing (some [sick]), .visit 0 .ok],
      ∀ line ∈ printed x.1 x.2, LineRight strict x.1.since line) ∧
    ∀ n ∈ w.watch.loopAlerted, strict.restartLoopMax ≤ w.since n := by
  have hsick : sick.healthy = false := by decide +kernel
  have hkeeps : Keeps step ClearsInTime (start strict) [.listing (some [sick]), .visit 0 .ok] := by
    refine ⟨trivial, fun t ht => ⟨?_, fun _ _ => trivial⟩⟩
    cases ht
    exact fun hhealthy => absurd hhealthy (by rw [hsick]; exact Bool.false_ne_true)
  have hrun : (run step (start strict) [.listing (some [sick]), .visit 0 .ok]).isSome = true := by
    decide +kernel
  obtain ⟨w, hw⟩ := Option.isSome_iff_exists.mp hrun
  exact ⟨w, hw, lines_right hkeeps hw⟩

/-- A container that was healthy since its only restart is halted for a loop. -/
theorem halted_after_recovery :
    ∃ w, run step (start strict) (tickOf sick ++ tickOf well ++ [Act.listing (some [sick])]) = some w ∧
      w.since "milvus-etcd" = 0 ∧
      printed w (.visit 0 .ok) = [.componentRestartLoop 0 "milvus-etcd" 1] ∧
      ∃ line ∈ printed w (.visit 0 .ok), ¬LineRight strict w.since line := by
  have hrun : (run step (start strict) (tickOf sick ++ tickOf well ++ [Act.listing (some [sick])])).any
      (fun w => decide (w.since "milvus-etcd" = 0 ∧
        printed w (.visit 0 .ok) = [.componentRestartLoop 0 "milvus-etcd" 1])) = true := by
    decide +kernel
  obtain ⟨w, hw, htest⟩ := (Option.any_eq_true _ _).mp hrun
  obtain ⟨hsince, hprinted⟩ := of_decide_eq_true htest
  refine ⟨w, hw, hsince, hprinted, _, by rw [hprinted]; exact List.mem_singleton_self _, ?_⟩
  rw [LineRight, hsince]
  decide

/-! ## How many restarts -/

/-- A successful listing has the container. -/
def lists (n : String) : Act → Bool
  | .listing (some rows) => rows.any fun r => r.names = n
  | _ => true

/-- No listing fails while the container is halted. -/
def haltSurvives (n : String) (w : World) : Act → Bool
  | .cleanup =>
      match w.pc with
      | .walking true [] _ => !w.watch.loopAlerted.contains n
      | _ => true
  | _ => true

/-- The names of a successful listing are seen or still to come. -/
def Present (n : String) : Pc → Prop
  | .walking false rest seen => n ∈ seen ∨ ∃ r ∈ rest, r.names = n
  | _ => True

/-- The restarts since the container was last healthy are in the history, and the
history is bounded. -/
structure Bounded (c : LocalConfig) (n : String) (w : World) : Prop where
  config : w.config = c
  present : Present n w.pc
  recorded : w.since n ≤ w.watch.restartHistory n
  bounded : w.watch.restartHistory n ≤ c.restartLoopMax.toNat

theorem bounded_start (c : LocalConfig) (n : String) : Bounded c n (start c) :=
  ⟨rfl, trivial, Nat.le_refl 0, Nat.zero_le _⟩

theorem Bounded.visited {n : String} (h : Bounded c n w) {r : Row} {now : ℤ} {o : Outcome}
    {x : Watch × List Line} (hx : Visited w.watch w.config now r o x) :
    w.sinceAfter r o n ≤ x.1.restartHistory n ∧ x.1.restartHistory n ≤ c.restartLoopMax.toNat := by
  have hrecorded := h.recorded
  have hbounded := h.bounded
  cases hx with
  | counts hhealthy hcalls hhist halert =>
      rw [since_kept hhealthy (fun hc => Bool.eq_false_iff.mp hcalls hc.1), hhist]
      exact ⟨hrecorded, hbounded⟩
  | recovers hhealthy hmem hhist halert =>
      rw [since_healthy hhealthy, hhist]
      by_cases hname : n = r.names
      · rw [hname, Function.update_self, Function.update_self]
        exact ⟨Nat.le_refl 0, Nat.zero_le _⟩
      · rw [Function.update_of_ne hname, Function.update_of_ne hname]
        exact ⟨hrecorded, hbounded⟩
  | healthy hhealthy hnot hhist halert =>
      rw [since_healthy hhealthy, hhist]
      refine ⟨?_, hbounded⟩
      by_cases hname : n = r.names
      · rw [hname, Function.update_self]
        exact Nat.zero_le _
      · rw [Function.update_of_ne hname]
        exact hrecorded
  | halts hhealthy hcalls hreach hhist halert =>
      rw [since_kept hhealthy (fun hc => Bool.eq_false_iff.mp hcalls hc.1), hhist]
      exact ⟨hrecorded, hbounded⟩
  | restarts hhealthy hcalls hok hnot hlt hhist halert =>
      rw [since_restarted hhealthy hcalls hok, hhist]
      by_cases hname : n = r.names
      · subst hname
        rw [h.config] at hlt
        rw [Function.update_self, Function.update_self]
        constructor <;> omega
      · rw [Function.update_of_ne hname, Function.update_of_ne hname]
        exact ⟨hrecorded, hbounded⟩
  | tries hhealthy hfails hhist halert =>
      rw [since_kept hhealthy (fun hc => hfails hc.2), hhist]
      exact ⟨hrecorded, hbounded⟩

theorem bounded_step {n : String} (h : Bounded c n w) (hsurvives : haltSurvives n w act = true)
    (hlists : lists n act = true) (hs : step w act = some v) : Bounded c n v := by
  cases act with
  | listing rows =>
      simp only [step] at hs
      split at hs
      · cases hs
        refine ⟨h.config, ?_, h.recorded, h.bounded⟩
        cases rows with
        | none => trivial
        | some rows =>
            obtain ⟨r, hr, hname⟩ := List.any_eq_true.mp hlists
            exact .inr ⟨r, hr, of_decide_eq_true hname⟩
      · cases hs
  | visit now o =>
      simp only [step] at hs
      split at hs
      · next failed r rest seen hpc =>
          cases hs
          obtain ⟨hrecorded, hbounded⟩ := h.visited (visited w.watch w.config now r o)
          refine ⟨h.config, ?_, hrecorded, hbounded⟩
          dsimp only
          split_ifs
          · trivial
          · have hpresent := h.present
            rw [hpc] at hpresent
            cases failed with
            | true => trivial
            | false =>
                rcases hpresent with hseen | ⟨r', hr', hname⟩
                · exact .inl (List.mem_cons_of_mem _ hseen)
                · rcases List.mem_cons.mp hr' with rfl | hr'
                  · exact .inl (hname ▸ List.mem_cons_self)
                  · exact .inr ⟨r', hr', hname⟩
      · cases hs
  | cleanup =>
      simp only [step] at hs
      split at hs
      · next failed seen hpc =>
          cases hs
          cases failed with
          | true =>
              have hnot : w.watch.loopAlerted.contains n = false := by
                simpa [haltSurvives, hpc] using hsurvives
              refine ⟨h.config, trivial, ?_, ?_⟩
              · simp only [Watch.cleanup, hnot, Bool.false_and, Bool.true_or, if_true]
                exact h.recorded
              · simp only [Watch.cleanup, hnot, Bool.false_and]
                exact h.bounded
          | false =>
              have hpresent := h.present
              rw [hpc] at hpresent
              have hseen : seen.contains n = true := by
                rcases hpresent with hseen | ⟨r, hr, -⟩
                · exact List.contains_iff_mem.mpr hseen
                · cases hr
              refine ⟨h.config, trivial, ?_, ?_⟩
              · simp only [Watch.cleanup, hseen, Bool.not_true, Bool.and_false, Bool.false_or, if_true]
                exact h.recorded
              · simp only [Watch.cleanup, hseen, Bool.not_true, Bool.and_false]
                exact h.bounded
      · cases hs

/-- A container that every successful listing has is restarted at most the full
number of times since it was last healthy, in a run where no listing fails while
it is halted. -/
theorem restarts_bounded {n : String} {as : List Act} (hlists : ∀ act ∈ as, lists n act = true)
    (hkeeps : Keeps step (fun w act => haltSurvives n w act = true) (start c) as)
    (hr : run step (start c) as = some w) : w.since n ≤ c.restartLoopMax.toNat := by
  have hboth := keeps_and_forall hkeeps hlists
  have hbounded := run_guarded (I := Bounded c n)
    (fun s a t hs hg ht => bounded_step hs hg.1 hg.2 ht) (bounded_start c n) hboth hr
  exact hbounded.recorded.trans hbounded.bounded

theorem restarts_bounded_sick : ∃ w, run step (start strict) (tickOf sick ++ tickOf sick) = some w ∧
    w.since "milvus-etcd" ≤ strict.restartLoopMax.toNat := by
  have hlists : ∀ act ∈ tickOf sick ++ tickOf sick, lists "milvus-etcd" act = true := by
    decide +kernel
  have hrun : (run (checked step (haltSurvives "milvus-etcd")) (start strict)
      (tickOf sick ++ tickOf sick)).isSome = true := by
    decide +kernel
  obtain ⟨w, hw⟩ := Option.isSome_iff_exists.mp hrun
  obtain ⟨hkeeps, hplain⟩ := keeps_of_checked hw
  exact ⟨w, hplain, restarts_bounded hlists hkeeps hplain⟩

/-- The container is halted, a listing fails, and the watchdog goes on. -/
def failedListing : List Act :=
  tickOf sick ++ tickOf sick ++ [Act.listing none, .cleanup] ++ tickOf sick

/-- A container that every successful listing has, and that is never seen healthy,
is restarted once more than it may be. -/
theorem restarted_beyond_bound : ∃ w, run step (start strict) failedListing = some w ∧
    (∀ act ∈ failedListing, lists "milvus-etcd" act = true) ∧
    strict.restartLoopMax.toNat < w.since "milvus-etcd" := by
  have hlists : ∀ act ∈ failedListing, lists "milvus-etcd" act = true := by
    decide +kernel
  have hrun : (run step (start strict) failedListing).any
      (fun w => decide (strict.restartLoopMax.toNat < w.since "milvus-etcd")) = true := by
    decide +kernel
  obtain ⟨w, hw, htest⟩ := (Option.any_eq_true _ _).mp hrun
  exact ⟨w, hw, hlists, of_decide_eq_true htest⟩

end MilvusOnprem.RestartCounts
