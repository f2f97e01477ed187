import MilvusOnprem.RestartCounts
import Mathlib.Data.List.DropRight

/-!
# When the watchdog restarts a container

The watchdog has one counter a container. A restart, a row that is not unhealthy and the
cleanup set it back, a restart that fails does not. In every run it is the number of times
the container was examined as unhealthy since one of these happened.
-/
namespace MilvusOnprem.DueRestarts

open GuardedRuns LocalWatchdog
open RestartCounts (config_step sick tickOf)

/-! ## Counting since a reset -/

section CountSince

variable {α : Type*} {reset hit : α → Bool}

/-- The hits behind the last reset. -/
def countSince (reset hit : α → Bool) (l : List α) : ℕ := (l.rtakeWhile fun a => !reset a).countP hit

theorem countSince_concat (l : List α) (a : α) :
    countSince reset hit (l ++ [a]) =
      if reset a then 0 else countSince reset hit l + if hit a then 1 else 0 := by
  unfold countSince
  split_ifs with hreset hhit
  · rw [List.rtakeWhile_concat_neg _ _ _ (by simp [hreset]), List.countP_nil]
  · rw [List.rtakeWhile_concat_pos _ _ _ (by simp [hreset]), List.countP_append, List.countP_singleton,
      if_pos hhit]
  · rw [List.rtakeWhile_concat_pos _ _ _ (by simp [hreset]), List.countP_append, List.countP_singleton,
      if_neg hhit]

theorem countP_le_countSince (hit : α → Bool) (pre : List α) {post : List α}
    (h : ∀ a ∈ post, reset a = false) :
    post.countP hit ≤ countSince reset hit (pre ++ post) := by
  have hkeep : ∀ a ∈ post.reverse, (!reset a) = true := fun a ha => by
    rw [h a (List.mem_reverse.mp ha), Bool.not_false]
  rw [countSince, List.rtakeWhile, List.reverse_append, List.takeWhile_append_of_pos hkeep,
    List.reverse_append, List.reverse_reverse, List.countP_append]
  exact Nat.le_add_left _ _

theorem exists_countSince (reset hit : α → Bool) (l : List α) : ∃ pre post, l = pre ++ post ∧
    (∀ a ∈ post, reset a = false) ∧ post.countP hit = countSince reset hit l := by
  refine ⟨l.rdropWhile fun a => !reset a, _, List.rdropWhile_append_rtakeWhile.symm, fun a ha => ?_, rfl⟩
  simpa using List.mem_rtakeWhile_imp ha

end CountSince

/-! ## What happens to a container -/

/-- The row that a step looks at. -/
def examined (x : World × Act) : Option Row :=
  match x.2, x.1.pc with
  | .visit _ _, .walking _ (r :: _) _ => some r
  | _, _ => none

/-- The container is examined and is unhealthy. -/
def foundUnhealthy (n : String) (x : World × Act) : Bool :=
  (examined x).any fun r => r.names = n && r.unhealthy

/-- The container is examined and is not unhealthy. -/
def foundOther (n : String) (x : World × Act) : Bool :=
  (examined x).any fun r => r.names = n && watched n && !r.unhealthy

/-- A tick is completed without the container. -/
def foundAbsent (n : String) (x : World × Act) : Bool :=
  match x.2, x.1.pc with
  | .cleanup, .walking _ [] seen => !seen.contains n
  | _, _ => false

/-- `docker restart` is issued for the container; its line is printed just before. -/
def issues (n : String) (x : World × Act) : Bool :=
  (printed x.1 x.2).any fun
    | .componentRestart _ name _ => name = n
    | .componentRestartLoop _ _ _ => false

def Act.outcome : Act → Option Outcome
  | .visit _ o => some o
  | _ => none

/-- The watchdog restarts the container, and `docker restart` succeeds. -/
def restarted (n : String) (x : World × Act) : Bool := issues n x && Act.outcome x.2 = some .ok

/-- The counting starts anew. -/
def resets (n : String) (x : World × Act) : Bool := foundOther n x || foundAbsent n x || restarted n x

/-- The loop guard of `_maybe_restart` has tripped, or trips when it is asked. -/
def loopGuard (w : Watch) (c : LocalConfig) (n : String) : Bool :=
  w.loopAlerted.contains n || decide (c.restartLoopMax ≤ w.restartHistory n)

/-! ## The counter -/

theorem counted_restarts (w : Watch) (c : LocalConfig) (r : Row) :
    (w.counted r).restarts c r.names = (!loopGuard w c r.names && c.watchdogMode = "auto") := by
  rw [loopGuard, Bool.not_or]
  rfl

theorem callsRestart_iff {w : Watch} {c : LocalConfig} {r : Row} :
    callsRestart w c r = true ↔ r.unhealthy = true ∧
      c.unhealthyThreshold ≤ (w.consecutiveUnhealthy r.names + 1 : ℕ) ∧
      loopGuard w c r.names = false ∧ c.watchdogMode = "auto" := by
  have hcount : (w.counted r).consecutiveUnhealthy r.names = w.consecutiveUnhealthy r.names + 1 :=
    Function.update_self _ _ _
  rw [callsRestart, due, counted_restarts, hcount]
  simp only [Bool.and_eq_true, Bool.not_eq_true', decide_eq_true_eq, and_assoc]

/-- The lines of one container that say `COMPONENT_RESTART`. -/
def restartsIn (n : String) (lines : List Line) : Bool :=
  lines.any fun
    | .componentRestart _ name _ => name = n
    | .componentRestartLoop _ _ _ => false

theorem maybeRestart_prints (w : Watch) (c : LocalConfig) (now : ℤ) (name n : String) (o : Outcome) :
    restartsIn n (w.maybeRestart c now name o).2 = (w.restarts c name && name = n) := by
  unfold Watch.maybeRestart Watch.restarts
  split_ifs with halerted hmax hmode
  · rw [halerted]
    rfl
  · rw [decide_eq_true hmax, Bool.not_true, Bool.and_false, Bool.false_and, Bool.false_and]
    rfl
  · rw [decide_eq_false hmode, Bool.and_false, Bool.false_and]
    rfl
  all_goals
    rw [Bool.not_eq_true _ |>.mp halerted, decide_eq_false hmax, decide_eq_true (not_not.mp hmode)]
    exact Bool.or_false _

/-- A row prints a restart when it calls for one, and one for its own container. -/
theorem visit_prints (w : Watch) (c : LocalConfig) (now : ℤ) (r : Row) (o : Outcome) (n : String) :
    restartsIn n (visit w c now r o).2 = (callsRestart w c r && r.names = n) := by
  have hquiet : r.unhealthy = false → callsRestart w c r = false := by
    intro h
    rw [callsRestart, due, h, Bool.false_and, Bool.false_and]
  unfold visit
  dsimp only
  split_ifs with hwatched hrestarting hunhealthy hdue hrecovers
  · rw [hquiet (by simp_all [Row.unhealthy]), Bool.false_and]
    rfl
  · rw [hquiet (by simp_all [Row.unhealthy]), Bool.false_and]
    rfl
  · rw [maybeRestart_prints, callsRestart, hdue, Bool.true_and]
  · rw [callsRestart, Bool.not_eq_true _ |>.mp hdue, Bool.false_and, Bool.false_and]
    rfl
  · rw [hquiet (by simp_all [Row.unhealthy]), Bool.false_and]
    rfl
  · rw [hquiet (by simp_all [Row.unhealthy]), Bool.false_and]
    rfl

/-- A restart that succeeds sets the counter of its container back, and nothing else in
`_maybe_restart` touches a counter. -/
theorem maybeRestart_counter (w : Watch) (c : LocalConfig) (now : ℤ) (name : String) (o : Outcome) :
    (w.maybeRestart c now name o).1.consecutiveUnhealthy =
      if w.restarts c name = true ∧ o = .ok then Function.update w.consecutiveUnhealthy name 0
      else w.consecutiveUnhealthy := by
  have hquiet : w.restarts c name = false → ¬(w.restarts c name = true ∧ o = .ok) :=
    fun h hc => Bool.eq_false_iff.mp h hc.1
  unfold Watch.maybeRestart
  by_cases halerted : w.loopAlerted.contains name = true
  · rw [if_pos halerted, if_neg (hquiet (by rw [Watch.restarts, halerted]; rfl))]
  rw [if_neg halerted]
  by_cases hmax : c.restartLoopMax ≤ w.restartHistory name
  · rw [if_pos hmax, if_neg (hquiet (by
      rw [Watch.restarts, decide_eq_true hmax, Bool.not_true, Bool.and_false, Bool.false_and]))]
  rw [if_neg hmax]
  by_cases hmode : c.watchdogMode = "auto"
  · have hrestarts : w.restarts c name = true := by
      rw [Watch.restarts, Bool.not_eq_true _ |>.mp halerted, decide_eq_false hmax, decide_eq_true hmode]
      rfl
    rw [if_neg (not_not.mpr hmode), hrestarts]
    by_cases hok : o = .ok
    · rw [if_pos hok, if_pos ⟨rfl, hok⟩]
      rfl
    · rw [if_neg hok, if_neg fun hc => hok hc.2]
  · rw [if_pos hmode, if_neg (hquiet (by rw [Watch.restarts, decide_eq_false hmode, Bool.and_false]))]

/-- The counters behind a row: only that of its container changes. -/
theorem visit_counter (w : Watch) (c : LocalConfig) (now : ℤ) (r : Row) (o : Outcome) :
    (visit w c now r o).1.consecutiveUnhealthy =
      if watched r.names = true then
        Function.update w.consecutiveUnhealthy r.names
          (if r.unhealthy = false ∨ callsRestart w c r = true ∧ o = .ok then 0
          else w.consecutiveUnhealthy r.names + 1)
      else w.consecutiveUnhealthy := by
  unfold visit
  by_cases hwatched : watched r.names = true
  · rw [if_neg (by simp [hwatched]), if_pos hwatched]
    by_cases hrestarting : r.state = "restarting"
    · rw [if_pos hrestarting, if_pos (.inl (by simp [Row.unhealthy, hrestarting]))]
      rfl
    rw [if_neg hrestarting]
    by_cases hunhealthy : parseHealth r.status = .unhealthy
    · have hrow : r.unhealthy = true := by simp [Row.unhealthy, hwatched, hrestarting, hunhealthy]
      rw [if_pos hunhealthy]
      by_cases hdue : due w c r = true
      · have hcalls : callsRestart w c r = (w.counted r).restarts c r.names := by
          rw [callsRestart, hdue, Bool.true_and]
        rw [if_pos hdue, maybeRestart_counter, ← hcalls]
        by_cases hok : callsRestart w c r = true ∧ o = .ok
        · rw [if_pos hok, if_pos (.inr hok)]
          exact Function.update_idem _ _ _
        · rw [if_neg hok, if_neg (by simp [hrow, hok])]
          rfl
      · have hcalls : ¬callsRestart w c r = true := fun h => hdue (Bool.and_eq_true_iff.mp h).1
        rw [if_neg hdue, if_neg (by simp [hrow, hcalls])]
        rfl
    · have hrow : r.unhealthy = false := by simp [Row.unhealthy, hunhealthy]
      have hreset : (if r.unhealthy = false ∨ callsRestart w c r = true ∧ o = .ok then 0
          else w.consecutiveUnhealthy r.names + 1) = 0 := if_pos (.inl hrow)
      rw [if_neg hunhealthy, hreset]
      dsimp only
      split_ifs <;> rfl
  · rw [if_pos (by simp [hwatched]), if_neg hwatched]

/-! ## The counter over a run -/

theorem issues_visit {w : World} {now : ℤ} {o : Outcome} {failed : Bool} {r : Row} {rest : List Row}
    {seen : List String} (hpc : w.pc = .walking failed (r :: rest) seen) (n : String) :
    issues n (w, .visit now o) = (callsRestart w.watch w.config r && r.names = n) := by
  have hprinted : printed w (.visit now o) = (visit w.watch w.config now r o).2 := by
    simp only [printed, hpc]
  rw [← visit_prints w.watch w.config now r o n, ← hprinted]
  rfl

theorem examined_visit {w : World} {now : ℤ} {o : Outcome} {failed : Bool} {r : Row} {rest : List Row}
    {seen : List String} (hpc : w.pc = .walking failed (r :: rest) seen) :
    examined (w, .visit now o) = some r := by
  simp only [examined, hpc]

/-- The counter of every container is the number of times it was examined as unhealthy
since the counting last started anew. -/
def Counts (c : LocalConfig) (w : World) (past : List (World × Act)) : Prop :=
  w.config = c ∧ ∀ n, w.watch.consecutiveUnhealthy n = countSince (resets n) (foundUnhealthy n) past

theorem counts_step {c : LocalConfig} (w : World) (past : List (World × Act)) (act : Act) (v : World)
    (h : Counts c w past) (hs : step w act = some v) : Counts c v (past ++ [(w, act)]) := by
  refine ⟨(config_step hs).trans h.1, fun n => ?_⟩
  rw [countSince_concat, ← h.2 n]
  cases act with
  | listing rows =>
      simp only [step] at hs
      split at hs
      · cases hs
        rfl
      · cases hs
  | visit now o =>
      simp only [step] at hs
      split at hs
      · next failed r rest seen hpc =>
          cases hs
          have hexamined : examined (w, .visit now o) = some r := examined_visit hpc
          have hresets : resets n (w, .visit now o) = (r.names = n && (watched n && !r.unhealthy ||
              callsRestart w.watch w.config r && o = .ok)) := by
            have habsent : foundAbsent n (w, .visit now o) = false := rfl
            rw [resets, foundOther, hexamined, Option.any_some, habsent, restarted, issues_visit hpc]
            by_cases hname : r.names = n <;> simp [hname, Act.outcome]
          have hfound : foundUnhealthy n (w, .visit now o) = (r.names = n && r.unhealthy) := by
            rw [foundUnhealthy, hexamined, Option.any_some]
          rw [hresets, hfound]
          dsimp only
          rw [visit_counter]
          by_cases hname : r.names = n
          · subst hname
            cases hwatched : watched r.names with
            | false =>
                have hrow : r.unhealthy = false := by simp [Row.unhealthy, hwatched]
                have hcalls : callsRestart w.watch w.config r = false := by simp [callsRestart, due, hrow]
                simp [hrow, hcalls]
            | true =>
                rw [if_pos rfl, Function.update_self]
                cases r.unhealthy <;> simp
          · have hother : decide (r.names = n) = false := decide_eq_false hname
            rw [hother, Bool.false_and, Bool.false_and, if_neg Bool.false_ne_true,
              if_neg Bool.false_ne_true, Nat.add_zero (w.watch.consecutiveUnhealthy n)]
            by_cases hwatched : watched r.names = true
            · rw [if_pos hwatched, Function.update_of_ne (Ne.symm hname)]
            · rw [if_neg hwatched]
      · cases hs
  | cleanup =>
      simp only [step] at hs
      split at hs
      · next failed seen hpc =>
          cases hs
          have hresets : resets n (w, .cleanup) = !seen.contains n := by
            simp [resets, foundOther, foundAbsent, restarted, Act.outcome, examined, hpc]
          have hfound : foundUnhealthy n (w, .cleanup) = false := rfl
          rw [hresets, hfound]
          change (if seen.contains n = true then w.watch.consecutiveUnhealthy n else 0) = _
          cases seen.contains n <;> simp
      · cases hs

/-- `docker restart` is issued for a container if and only if its loop guard has not
tripped and it is examined as unhealthy for at least the threshold, in a row since it was
last examined as something else, was absent from a completed tick or was restarted. -/
theorem issues_iff {c : LocalConfig} {as : List Act} {w : World} (hmode : c.watchdogMode = "auto")
    (hr : run step (start c) as = some w) (n : String) (act : Act) :
    issues n (w, act) = true ↔ loopGuard w.watch c n = false ∧ foundUnhealthy n (w, act) = true ∧
      ∃ before streak, trace step (start c) as = before ++ streak ∧
        (∀ x ∈ streak, resets n x = false) ∧
        c.unhealthyThreshold ≤ (streak.countP (foundUnhealthy n) + 1 : ℕ) := by
  obtain ⟨hconfig, hcounter⟩ : Counts c w (trace step (start c) as) :=
    run_history counts_step ⟨rfl, fun _ => rfl⟩ hr
  have hstreak : (∃ before streak, trace step (start c) as = before ++ streak ∧
      (∀ x ∈ streak, resets n x = false) ∧
      c.unhealthyThreshold ≤ (streak.countP (foundUnhealthy n) + 1 : ℕ)) ↔
      c.unhealthyThreshold ≤ (w.watch.consecutiveUnhealthy n + 1 : ℕ) := by
    rw [hcounter n]
    constructor
    · rintro ⟨before, streak, htrace, hkeep, hreach⟩
      have hle := countP_le_countSince (foundUnhealthy n) before hkeep
      rw [htrace]
      omega
    · intro hreach
      obtain ⟨before, streak, htrace, hkeep, hcount⟩ :=
        exists_countSince (resets n) (foundUnhealthy n) (trace step (start c) as)
      exact ⟨before, streak, htrace, hkeep, hcount ▸ hreach⟩
  rw [hstreak]
  cases act with
  | listing rows => exact iff_of_false Bool.false_ne_true fun h => absurd h.2.1 Bool.false_ne_true
  | cleanup => exact iff_of_false Bool.false_ne_true fun h => absurd h.2.1 Bool.false_ne_true
  | visit now o =>
      cases hpc : w.pc with
      | idle =>
          have hprinted : issues n (w, .visit now o) = false := by simp [issues, printed, hpc]
          have hfound : foundUnhealthy n (w, .visit now o) = false := by simp [foundUnhealthy, examined, hpc]
          rw [hprinted, hfound]
          exact iff_of_false Bool.false_ne_true fun h => absurd h.2.1 Bool.false_ne_true
      | walking failed rows seen =>
          cases rows with
          | nil =>
              have hprinted : issues n (w, .visit now o) = false := by simp [issues, printed, hpc]
              have hfound : foundUnhealthy n (w, .visit now o) = false := by
                simp [foundUnhealthy, examined, hpc]
              rw [hprinted, hfound]
              exact iff_of_false Bool.false_ne_true fun h => absurd h.2.1 Bool.false_ne_true
          | cons r rest =>
              rw [issues_visit hpc, foundUnhealthy, examined_visit hpc, Option.any_some, hconfig,
                Bool.and_eq_true, Bool.and_eq_true, callsRestart_iff, decide_eq_true_eq]
              constructor
              · rintro ⟨⟨hunhealthy, hreach, hguard, -⟩, rfl⟩
                exact ⟨hguard, ⟨rfl, hunhealthy⟩, hreach⟩
              · rintro ⟨hguard, ⟨rfl, hunhealthy⟩, hreach⟩
                exact ⟨⟨hunhealthy, hreach, hguard, hmode⟩, rfl⟩

def patient : LocalConfig := ⟨"auto", 2, 3⟩

/-- The second unhealthy row in a row leads to a restart. -/
theorem issues_iff_sick : ∃ w, run step (start patient) (tickOf sick ++ [Act.listing (some [sick])]) = some w ∧
    issues "milvus-etcd" (w, .visit 0 .failed) = true ∧
    loopGuard w.watch patient "milvus-etcd" = false ∧
    ∃ before streak, trace step (start patient) (tickOf sick ++ [Act.listing (some [sick])]) = before ++ streak ∧
      (∀ x ∈ streak, resets "milvus-etcd" x = false) ∧
      patient.unhealthyThreshold ≤ (streak.countP (foundUnhealthy "milvus-etcd") + 1 : ℕ) := by
  have hrun : (run step (start patient) (tickOf sick ++ [Act.listing (some [sick])])).any
      (fun w => issues "milvus-etcd" (w, .visit 0 .failed)) = true := by
    decide +kernel
  obtain ⟨w, hw, hissued⟩ := (Option.any_eq_true _ _).mp hrun
  obtain ⟨hguard, -, hstreak⟩ := (issues_iff rfl hw "milvus-etcd" (.visit 0 .failed)).mp hissued
  exact ⟨w, hw, hissued, hguard, hstreak⟩

end MilvusOnprem.DueRestarts
