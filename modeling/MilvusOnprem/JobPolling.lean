import MilvusOnprem.Jobs
import Mathlib.Data.List.TakeWhile

/-!
# The log of a job on the operator's terminal

The worker of a job appends lines to its log, of which the job keeps the last
`LOG_TAIL_LINES`. The flusher stores the job, and `_poll_job` asks for the stored
job every two seconds. It remembers how long the list was that it printed last,
and prints what stands behind that position in the list it gets.

The list goes through a command substitution of the shell, which drops the
characters with code zero and all newlines at the end. The messages about the
state of the job go to another stream and are left out.
-/
namespace MilvusOnprem.JobPolling

open PythonText Jobs GuardedRuns

/-- The text `log_writer` keeps of a line. -/
def capped (line : String) : String :=
  let stripped := String.ofList (line.toList.reverse.dropWhile fun c => c = '\n').reverse
  if LOG_LINE_CAP_CHARS < stripped.length then
    prefixOf LOG_LINE_CAP_CHARS stripped ++ "…[truncated]"
  else stripped

/-- `logs[-LOG_TAIL_LINES:]` -/
def lastLines (lines : List String) : List String := lines.drop (lines.length - LOG_TAIL_LINES)

/-! ## The poller -/

/-- What `print` writes for every line. -/
def printLines (lines : List String) : List Char := lines.flatMap fun line => line.toList ++ ['\n']

/-- `$(…)` -/
def substituted (out : List Char) : List Char :=
  ((out.filter fun c => c ≠ '\x00').reverse.dropWhile fun c => c = '\n').reverse

/-- `last_log_count`, and what was printed so far. -/
structure Poller where
  lastLogCount : ℕ
  printed : List Char
deriving DecidableEq

/-- The middle of the loop of `_poll_job`, for the logs it was sent. -/
def Poller.poll (p : Poller) (logs : List String) : Poller :=
  let lines := substituted (printLines (logs.drop p.lastLogCount))
  if lines = [] then p else ⟨logs.length, p.printed ++ lines ++ ['\n']⟩

/-- The job and its stored record, the poller, and whether it has returned. -/
structure World where
  job : Job
  stored : Job
  poller : Poller
  returned : Option Bool

inductive Act where
  | log (line : String)
  | progress (p : ℚ)
  | finish (state : JobState) (error : Option String) (now : ℤ)
  | flush (now : ℤ)
  | poll
  | failedPoll
deriving DecidableEq

/-- The result of `_poll_job` once the state of the job says so. -/
def exitStatus : JobState → Option Bool
  | .done => some true
  | .failed | .cancelled => some false
  | .pending | .running => none

def step (w : World) : Act → Option World
  | .log line => some { w with job := w.job.logWriter line }
  | .progress p => some { w with job := w.job.progressSetter p }
  | .finish state error now =>
      some { w with job := { w.job with state := state, error := error, finishedAt := some now } }
  | .flush now =>
      let job := { w.job with lastHeartbeat := some now }
      some { w with job := job, stored := job }
  | .poll =>
      if w.returned = none then
        some { w with
          poller := w.poller.poll w.stored.logs
          returned := exitStatus w.stored.state }
      else none
  | .failedPoll => if w.returned = none then some w else none

/-- A job without a log, as it was created. -/
def start (job : Job) : World where
  job := { job with logs := [] }
  stored := { job with logs := [] }
  poller := ⟨0, []⟩
  returned := none

/-! ## What the polls see -/

/-- For every answered poll the lines that the worker had written when the job it
gets was stored. -/
def views (written stored : List String) : List Act → List (List String)
  | [] => []
  | .log line :: acts => views (written ++ [capped line]) stored acts
  | .flush _ :: acts => views written written acts
  | .poll :: acts => stored :: views written stored acts
  | .progress _ :: acts | .finish _ _ _ :: acts | .failedPoll :: acts => views written stored acts

/-- What the last of the polls has seen, or `u` before any. -/
def lastView (u : List String) : List (List String) → List String
  | [] => u
  | v :: vs => lastView v vs

/-- Fewer than `LOG_TAIL_LINES` lines come between two polls. -/
def Spaced (u : List String) : List (List String) → Prop
  | [] => True
  | v :: vs => v.length < u.length + LOG_TAIL_LINES ∧ Spaced v vs

/-- The newest line is not empty. -/
def Ends (lines : List String) : Prop := lines.getLast? ≠ some ""

def NoZero (lines : List String) : Prop := ∀ line ∈ lines, '\x00' ∉ line.toList

/-- A poll after `u` gets the whole log without zeros, and its newest line is not
empty or all its new lines are. -/
def Fits (u v : List String) : Prop :=
  v.length ≤ LOG_TAIL_LINES ∧ NoZero v ∧ (Ends v ∨ ∀ line ∈ v.drop u.length, line = "")

def AllFit (u : List String) : List (List String) → Prop
  | [] => True
  | v :: vs => Fits u v ∧ AllFit v vs

/-! ## The window of the job -/

theorem logWriter_logs (job : Job) (line : String) :
    (job.logWriter line).logs = lastLines (job.logs ++ [capped line]) := by
  simp only [Job.logWriter, capped, lastLines]

theorem drop_append_drop {α : Type} (n : ℕ) (xs : List α) (x : α) :
    (xs.drop (xs.length - n) ++ [x]).drop ((xs.drop (xs.length - n) ++ [x]).length - n) =
      (xs ++ [x]).drop ((xs ++ [x]).length - n) := by
  rw [← List.drop_append_of_le_length (Nat.sub_le _ _), List.drop_drop]
  have hlen : xs.length - n + (((xs ++ [x]).drop (xs.length - n)).length - n) =
      (xs ++ [x]).length - n := by
    simp only [List.length_drop, List.length_append, List.length_singleton]
    omega
  rw [hlen]

/-- Cutting the log at every line is the same as cutting it at the end. -/
theorem lastLines_append (lines : List String) (line : String) :
    lastLines (lastLines lines ++ [line]) = lastLines (lines ++ [line]) :=
  drop_append_drop LOG_TAIL_LINES lines line

/-- The polls of a run see the last lines of their views. -/
theorem run_poller {w v : World} {p : Poller} {written stored : List String} {acts : List Act}
    (hjob : w.job.logs = lastLines written) (hstored : w.stored.logs = lastLines stored)
    (hp : w.poller = p) (hr : run step w acts = some v) :
    v.poller = (views written stored acts).foldl (fun p u => p.poll (lastLines u)) p := by
  induction acts generalizing w p written stored with
  | nil =>
      cases hr
      exact hp
  | cons a acts ih =>
      obtain ⟨u, hu, hr⟩ := run_cons.mp hr
      cases a with
      | log line =>
          cases hu
          refine ih ?_ ?_ ?_ hr
          · rw [logWriter_logs, hjob, lastLines_append]
          · exact hstored
          · exact hp
      | progress q =>
          cases hu
          refine ih ?_ ?_ ?_ hr
          · exact hjob
          · exact hstored
          · exact hp
      | finish state error now =>
          cases hu
          refine ih ?_ ?_ ?_ hr
          · exact hjob
          · exact hstored
          · exact hp
      | flush now =>
          cases hu
          refine ih ?_ ?_ ?_ hr
          · exact hjob
          · exact hjob
          · exact hp
      | poll =>
          simp only [step] at hu
          split_ifs at hu
          cases hu
          refine ih ?_ ?_ ?_ hr
          · exact hjob
          · exact hstored
          · rw [hp, hstored]
      | failedPoll =>
          simp only [step] at hu
          split_ifs at hu
          cases hu
          exact ih hjob hstored hp hr

/-- Every view extends the one before. -/
def Grows (u : List String) : List (List String) → Prop
  | [] => True
  | v :: vs => u <+: v ∧ Grows v vs

theorem views_grow {written stored u : List String} (acts : List Act) (hs : stored <+: written)
    (hu : u <+: stored) : Grows u (views written stored acts) := by
  induction acts generalizing written stored u with
  | nil => trivial
  | cons a acts ih =>
      cases a with
      | log line => exact ih (hs.trans (List.prefix_append _ _)) hu
      | flush now => exact ih (List.prefix_refl _) (hu.trans hs)
      | poll => exact ⟨hu, ih hs (List.prefix_refl _)⟩
      | progress p => exact ih hs hu
      | finish state error now => exact ih hs hu
      | failedPoll => exact ih hs hu

/-- A kept line does not end with a newline. -/
def Trimmed (line : String) : Prop := line.toList.getLast? ≠ some '\n'

theorem trimmed_capped (line : String) : Trimmed (capped line) := by
  unfold Trimmed capped
  dsimp only
  split_ifs
  · rw [String.toList_append]
    have hlast : "…[truncated]".toList ≠ [] := by decide
    rw [List.getLast?_append_of_ne_nil _ hlast]
    decide
  · rw [String.toList_ofList, List.getLast?_reverse]
    intro h
    have hnot := List.head?_dropWhile_not (fun c => decide (c = '\n')) line.toList.reverse
    rw [h] at hnot
    simp at hnot

theorem views_trimmed {written stored : List String} (acts : List Act)
    (hw : ∀ line ∈ written, Trimmed line) (hs : ∀ line ∈ stored, Trimmed line) :
    ∀ v ∈ views written stored acts, ∀ line ∈ v, Trimmed line := by
  induction acts generalizing written stored with
  | nil =>
      intro v hv
      cases hv
  | cons a acts ih =>
      cases a with
      | log line =>
          refine ih ?_ hs
          intro l hl
          rcases List.mem_append.mp hl with hl | hl
          · exact hw l hl
          · rw [List.mem_singleton.mp hl]
            exact trimmed_capped line
      | flush now => exact ih hw hw
      | poll =>
          intro v hv
          rcases List.mem_cons.mp hv with rfl | hv
          · exact hs
          · exact ih hw hs v hv
      | progress p => exact ih hw hs
      | finish state error now => exact ih hw hs
      | failedPoll => exact ih hw hs

/-! ## What a substitution keeps -/

@[simp] theorem printLines_nil : printLines [] = [] := rfl

@[simp] theorem printLines_cons (line : String) (lines : List String) :
    printLines (line :: lines) = line.toList ++ '\n' :: printLines lines := by
  simp [printLines]

@[simp] theorem printLines_append (xs ys : List String) :
    printLines (xs ++ ys) = printLines xs ++ printLines ys := List.flatMap_append

theorem printLines_pos {lines : List String} (h : lines ≠ []) : 0 < (printLines lines).length := by
  cases lines with
  | nil => exact absurd rfl h
  | cons line lines =>
      simp only [printLines_cons, List.length_append, List.length_cons]
      omega

/-- The number of characters that a substitution could let through. -/
def deliverable (lines : List String) : ℕ := ((printLines lines).filter fun c => c ≠ '\x00').length

theorem deliverable_append (xs ys : List String) :
    deliverable (xs ++ ys) = deliverable xs + deliverable ys := by
  simp only [deliverable, printLines_append, List.filter_append, List.length_append]

theorem deliverable_le (lines : List String) : deliverable lines ≤ (printLines lines).length :=
  List.length_filter_le _ _

theorem deliverable_drop_le (lines : List String) {j k : ℕ} (h : j ≤ k) :
    deliverable (lines.drop k) ≤ deliverable (lines.drop j) := by
  have hsplit : lines.drop j = (lines.drop j).take (k - j) ++ lines.drop k := by
    rw [show lines.drop k = (lines.drop j).drop (k - j) by rw [List.drop_drop]; congr 1; omega,
      List.take_append_drop]
  rw [hsplit, deliverable_append]
  exact Nat.le_add_left _ _

/-- A zero does not get through. -/
theorem deliverable_lt {lines : List String} {line : String} (hline : line ∈ lines)
    (hzero : '\x00' ∈ line.toList) : deliverable lines < (printLines lines).length := by
  have hmem : '\x00' ∈ printLines lines :=
    List.mem_flatMap.mpr ⟨line, hline, List.mem_append_left _ hzero⟩
  refine List.length_filter_lt_length_iff_exists.mpr ⟨'\x00', hmem, ?_⟩
  simp

theorem filter_printLines {lines : List String} (h : NoZero lines) :
    ((printLines lines).filter fun c => c ≠ '\x00') = printLines lines := by
  apply List.filter_eq_self.mpr
  intro c hc
  obtain ⟨line, hline, hc⟩ := List.mem_flatMap.mp hc
  rcases List.mem_append.mp hc with hc | hc
  · exact decide_eq_true fun he => h line hline (he ▸ hc)
  · rw [List.mem_singleton.mp hc]
    decide

/-- One newline at the end is dropped with those before it. -/
theorem dropWhile_newline (cs : List Char) :
    ((cs ++ ['\n']).reverse.dropWhile fun c => c = '\n') =
      cs.reverse.dropWhile fun c => c = '\n' := by
  rw [List.reverse_append, List.reverse_singleton, List.singleton_append]
  exact List.dropWhile_cons_of_pos (decide_eq_true rfl)

/-- A substitution that is not empty has lost at least the final newline. -/
theorem substituted_length {lines : List String} (h : lines ≠ []) :
    (substituted (printLines lines)).length + 1 ≤ deliverable lines := by
  obtain ⟨init, last, rfl⟩ := (List.eq_nil_or_concat' lines).resolve_left h
  have hfilter : ((printLines (init ++ [last])).filter fun c => c ≠ '\x00') =
      (printLines init ++ last.toList).filter (fun c => c ≠ '\x00') ++ ['\n'] := by
    rw [printLines_append, printLines_cons, printLines_nil, ← List.append_assoc, List.filter_append]
    rfl
  have hle := (List.dropWhile_sublist (fun c => decide (c = '\n'))
    (l := ((printLines init ++ last.toList).filter fun c => c ≠ '\x00').reverse)).length_le
  rw [List.length_reverse] at hle
  rw [deliverable, substituted, hfilter, dropWhile_newline, List.length_reverse, List.length_append,
    List.length_singleton]
  omega

/-- Of empty lines nothing is left. -/
theorem substituted_empties {lines : List String} (h : ∀ line ∈ lines, line = "") :
    substituted (printLines lines) = [] := by
  have hall : ∀ c ∈ ((printLines lines).filter fun c => c ≠ '\x00').reverse,
      decide (c = '\n') = true := by
    intro c hc
    obtain ⟨line, hline, hc⟩ := List.mem_flatMap.mp (List.mem_filter.mp (List.mem_reverse.mp hc)).1
    rw [h line hline] at hc
    exact decide_eq_true (List.mem_singleton.mp hc)
  rw [substituted, List.dropWhile_eq_nil_iff.mpr hall, List.reverse_nil]

/-- Of other lines something is left. -/
theorem substituted_ne_nil {lines : List String} {line : String} (hline : line ∈ lines)
    (htrim : Trimmed line) (hzero : '\x00' ∉ line.toList) (hne : line ≠ "") :
    substituted (printLines lines) ≠ [] := by
  intro hnil
  rw [substituted, List.reverse_eq_nil_iff, List.dropWhile_eq_nil_iff] at hnil
  have hchars : line.toList ≠ [] := fun he => hne (String.toList_injective he)
  have hlast := List.getLast_mem hchars
  have hnewline : line.toList.getLast hchars = '\n' := by
    have hmem : line.toList.getLast hchars ∈ printLines lines :=
      List.mem_flatMap.mpr ⟨line, hline, List.mem_append_left _ hlast⟩
    have hkeep : decide (line.toList.getLast hchars ≠ '\x00') = true :=
      decide_eq_true fun he => hzero (he ▸ hlast)
    exact of_decide_eq_true (hnil _ (List.mem_reverse.mpr (List.mem_filter.mpr ⟨hmem, hkeep⟩)))
  exact htrim (by rw [List.getLast?_eq_some_getLast hchars, hnewline])

/-- A substitution loses only the final newline when the newest line is not empty. -/
theorem substituted_ends {lines : List String} (hne : lines ≠ []) (hends : Ends lines)
    (htrim : ∀ line ∈ lines, Trimmed line) (hzero : NoZero lines) :
    substituted (printLines lines) ++ ['\n'] = printLines lines := by
  obtain ⟨init, last, rfl⟩ := (List.eq_nil_or_concat' lines).resolve_left hne
  have hlast : last.toList ≠ [] := by
    intro he
    apply hends
    have hempty : last = "" := String.toList_injective he
    rw [List.getLast?_concat, hempty]
  obtain ⟨cs, c, hcs⟩ := (List.eq_nil_or_concat' last.toList).resolve_left hlast
  have hc : c ≠ '\n' := by
    intro he
    apply htrim last (by simp)
    rw [hcs, List.getLast?_concat, he]
  have htext : printLines (init ++ [last]) = (printLines init ++ cs) ++ [c] ++ ['\n'] := by
    rw [printLines_append, printLines_cons, printLines_nil, hcs]
    simp
  rw [substituted, filter_printLines hzero, htext]
  simp [hc]

/-! ## One poll -/

variable {u v : List String} {p : Poller}

/-- Where in the whole log the next poll starts to print. -/
def position (p : Poller) (v : List String) : ℕ := v.length - LOG_TAIL_LINES + p.lastLogCount

theorem drop_lastLines (p : Poller) (v : List String) :
    (lastLines v).drop p.lastLogCount = v.drop (position p v) := List.drop_drop

/-- The poller has printed the log up to its position, and only empty lines
stand behind it. -/
structure Caught (u : List String) (p : Poller) : Prop where
  whole : u.length ≤ LOG_TAIL_LINES
  noZero : NoZero u
  le : p.lastLogCount ≤ u.length
  printed : p.printed = printLines (u.take p.lastLogCount)
  ends : Ends (u.take p.lastLogCount)
  rest : ∀ line ∈ u.drop p.lastLogCount, line = ""

/-- Even with all that can still be printed the poller is short of the log. -/
def Lossy (v : List String) (p : Poller) : Prop :=
  p.printed.length + deliverable (v.drop (position p v)) < (printLines v).length

theorem Lossy.ne (h : Lossy v p) : p.printed ≠ printLines v := by
  intro he
  unfold Lossy at h
  rw [he] at h
  omega

/-- Lines that are added do not make up for lost ones. -/
theorem Lossy.grow (h : Lossy u p) (huv : u <+: v) : Lossy v p := by
  obtain ⟨x, rfl⟩ := huv
  have hpos : position p u ≤ position p (u ++ x) := by
    unfold position
    rw [List.length_append]
    omega
  have hold := deliverable_drop_le u hpos
  have hnew : deliverable (x.drop (position p (u ++ x) - u.length)) ≤ (printLines x).length :=
    (deliverable_drop_le x (Nat.zero_le _)).trans (deliverable_le x)
  unfold Lossy at h ⊢
  rw [List.drop_append, deliverable_append, printLines_append, List.length_append]
  omega

theorem Lossy.poll (h : Lossy v p) : Lossy v (p.poll (lastLines v)) := by
  unfold Poller.poll
  rw [drop_lastLines]
  dsimp only
  split_ifs with hnil
  · exact h
  · have hrest : v.drop (position p v) ≠ [] := by
      intro he
      exact hnil (by rw [he]; rfl)
    have hlen := substituted_length hrest
    have hpos : v.length ≤ v.length - LOG_TAIL_LINES + (lastLines v).length := by
      rw [lastLines, List.length_drop]
      omega
    have hend : v.drop (v.length - LOG_TAIL_LINES + (lastLines v).length) = [] :=
      List.drop_of_length_le hpos
    unfold Lossy at h ⊢
    dsimp only [position] at h hlen ⊢
    rw [hend, List.length_append, List.length_append, List.length_singleton]
    change _ + 0 < _
    omega

theorem getLast?_drop {lines : List String} {k : ℕ} (h : lines.drop k ≠ []) :
    (lines.drop k).getLast? = lines.getLast? := by
  conv_rhs => rw [← List.take_append_drop k lines]
  rw [List.getLast?_append_of_ne_nil _ h]

/-- Among lines that are kept empty, the newest one is. -/
theorem not_ends {lines : List String} (hne : lines ≠ []) (h : ∀ line ∈ lines, line = "") :
    ¬Ends lines := by
  intro hends
  apply hends
  rw [List.getLast?_eq_some_getLast hne, h _ (List.getLast_mem hne)]

theorem Caught.printed_iff (h : Caught u p) : p.printed = printLines u ↔ Ends u := by
  rw [h.printed]
  conv_lhs => rhs; rw [← List.take_append_drop p.lastLogCount u]
  rw [printLines_append]
  constructor
  · intro he
    have hlen := congrArg List.length he
    rw [List.length_append] at hlen
    have hrest : u.drop p.lastLogCount = [] := by
      by_contra hne
      have hpos := printLines_pos hne
      omega
    rw [← List.take_append_drop p.lastLogCount u, hrest, List.append_nil]
    exact h.ends
  · intro hends
    have hrest : u.drop p.lastLogCount = [] := by
      by_contra hne
      apply not_ends hne h.rest
      rw [Ends, getLast?_drop hne]
      exact hends
    rw [hrest, printLines_nil, List.append_nil]

theorem caught_poll (h : Caught u p) (huv : u <+: v) (htrim : ∀ line ∈ v, Trimmed line)
    (hfits : Fits u v) : Caught v (p.poll (lastLines v)) := by
  obtain ⟨hwhole, hzero, hends⟩ := hfits
  have hwindow : lastLines v = v := by
    rw [lastLines, Nat.sub_eq_zero_of_le hwhole, List.drop_zero]
  have htake : v.take p.lastLogCount = u.take p.lastLogCount := by
    obtain ⟨x, rfl⟩ := huv
    exact List.take_append_of_le_length h.le
  have hle : p.lastLogCount ≤ v.length := h.le.trans huv.length_le
  unfold Poller.poll
  rw [hwindow]
  dsimp only
  by_cases hempty : ∀ line ∈ v.drop p.lastLogCount, line = ""
  · rw [if_pos (substituted_empties hempty)]
    exact ⟨hwhole, hzero, hle, by rw [h.printed, htake], by rw [htake]; exact h.ends, hempty⟩
  · have hends : Ends v := by
      refine hends.resolve_right fun hnew => hempty ?_
      obtain ⟨x, rfl⟩ := huv
      intro line hline
      rw [List.drop_append_of_le_length h.le] at hline
      rw [List.drop_left] at hnew
      exact (List.mem_append.mp hline).elim (h.rest line) (hnew line)
    simp only [not_forall] at hempty
    obtain ⟨line, hline, hne⟩ := hempty
    have hrest : v.drop p.lastLogCount ≠ [] := List.ne_nil_of_mem hline
    have hmem : ∀ l ∈ v.drop p.lastLogCount, l ∈ v := fun l hl => List.mem_of_mem_drop hl
    rw [if_neg (substituted_ne_nil hline (htrim _ (hmem _ hline)) (hzero _ (hmem _ hline)) hne)]
    have htext := substituted_ends hrest (by rw [Ends, getLast?_drop hrest]; exact hends)
      (fun l hl => htrim l (hmem l hl)) (fun l hl => hzero l (hmem l hl))
    refine ⟨hwhole, hzero, le_rfl, ?_, ?_, ?_⟩
    · rw [List.append_assoc, htext, h.printed, ← htake, ← printLines_append,
        List.take_append_drop, List.take_length]
    · rw [List.take_length]
      exact hends
    · rw [List.drop_length]
      intro l hl
      cases hl

theorem lossy_poll (h : Caught u p) (huv : u <+: v) (htrim : ∀ line ∈ v, Trimmed line)
    (hfits : ¬Fits u v) : Lossy v (p.poll (lastLines v)) := by
  have htake : v.take p.lastLogCount = u.take p.lastLogCount := by
    obtain ⟨x, rfl⟩ := huv
    exact List.take_append_of_le_length h.le
  have hprinted : p.printed.length + (printLines (v.drop p.lastLogCount)).length =
      (printLines v).length := by
    rw [h.printed, ← htake, ← List.length_append, ← printLines_append, List.take_append_drop]
  by_cases hwhole : v.length ≤ LOG_TAIL_LINES
  · have hpos : position p v = p.lastLogCount := by
      unfold position
      omega
    by_cases hzero : NoZero v
    · -- the newest line is empty, but not all the new ones are
      simp only [Fits, hwhole, hzero, true_and, not_or, not_forall] at hfits
      obtain ⟨hends, line, hnew, hne⟩ := hfits
      have hline : line ∈ v.drop p.lastLogCount := List.mem_of_mem_drop (i := u.length -
        p.lastLogCount) (by rw [List.drop_drop, Nat.add_sub_cancel' h.le]; exact hnew)
      have hrest : v.drop p.lastLogCount ≠ [] := List.ne_nil_of_mem hline
      obtain ⟨init, last, hsplit⟩ := (List.eq_nil_or_concat' _).resolve_left hrest
      have hlast : last = "" := by
        have hget := getLast?_drop hrest
        rw [hsplit, List.getLast?_concat] at hget
        exact Option.some.inj (hget.trans (not_not.mp hends))
      have hinit : line ∈ init := by
        rw [hsplit, hlast] at hline
        exact (List.mem_append.mp hline).resolve_right fun he => hne (List.mem_singleton.mp he)
      have hprint : printLines (v.drop p.lastLogCount) = printLines init ++ ['\n'] := by
        rw [hsplit, hlast, printLines_append]
        rfl
      have hzeros : NoZero (v.drop p.lastLogCount) := fun l hl => hzero l (List.mem_of_mem_drop hl)
      have hinitZeros : NoZero init := fun l hl => hzeros l (by rw [hsplit]; simp [hl])
      have hsame : substituted (printLines (v.drop p.lastLogCount)) = substituted (printLines init) := by
        rw [substituted, substituted, filter_printLines hzeros, filter_printLines hinitZeros, hprint,
          dropWhile_newline]
      have hsome := substituted_ne_nil hinit (htrim _ (List.mem_of_mem_drop hline))
        (hinitZeros _ hinit) hne
      have hlen := (substituted_length (List.ne_nil_of_mem hinit)).trans (deliverable_le init)
      have hfull := congrArg List.length hprint
      have hwindow : lastLines v = v := by
        rw [lastLines, Nat.sub_eq_zero_of_le hwhole, List.drop_zero]
      unfold Poller.poll
      rw [hwindow, hsame]
      dsimp only
      rw [if_neg hsome, Lossy, position, List.drop_of_length_le (by simp)]
      simp only [deliverable, printLines_nil, List.filter_nil, List.length_nil, List.length_append,
        List.length_singleton] at hprinted hfull ⊢
      omega
    · simp only [NoZero, not_forall, not_not] at hzero
      obtain ⟨line, hline, hmem⟩ := hzero
      have hrest : line ∈ v.drop p.lastLogCount := by
        rw [← List.take_append_drop p.lastLogCount v, htake] at hline
        refine (List.mem_append.mp hline).resolve_left fun hold => ?_
        exact h.noZero line (List.mem_of_mem_take hold) hmem
      have hlt := deliverable_lt hrest hmem
      refine Lossy.poll ?_
      rw [Lossy, hpos]
      omega
  · refine Lossy.poll ?_
    have hle := h.le
    have hshort := h.whole
    -- the lines that have slid out of the window are lost
    have hskip : (v.drop p.lastLogCount).take (v.length - LOG_TAIL_LINES) ≠ [] := by
      rw [ne_eq, ← List.length_eq_zero_iff, List.length_take, List.length_drop]
      omega
    have hsplit : printLines (v.drop p.lastLogCount) =
        printLines ((v.drop p.lastLogCount).take (v.length - LOG_TAIL_LINES)) ++
          printLines (v.drop (position p v)) := by
      rw [position, Nat.add_comm, ← List.drop_drop, ← printLines_append, List.take_append_drop]
    have hlen := congrArg List.length hsplit
    rw [List.length_append] at hlen
    have hpos := printLines_pos hskip
    have hdeliver := deliverable_le (v.drop (position p v))
    rw [Lossy]
    omega

/-! ## All polls -/

theorem lossy_polls {vs : List (List String)} (h : Lossy u p) (hgrow : Grows u vs) :
    Lossy (lastView u vs) (vs.foldl (fun p u => p.poll (lastLines u)) p) := by
  induction vs generalizing u p with
  | nil => exact h
  | cons v vs ih => exact ih (h.grow hgrow.1).poll hgrow.2

/-- The polls print the whole log exactly if they all fit and end with a line
that is not empty. -/
theorem polls_printed_iff {vs : List (List String)} (h : Caught u p) (hgrow : Grows u vs)
    (htrim : ∀ v ∈ vs, ∀ line ∈ v, Trimmed line) :
    (vs.foldl (fun p u => p.poll (lastLines u)) p).printed = printLines (lastView u vs) ↔
      AllFit u vs ∧ Ends (lastView u vs) := by
  induction vs generalizing u p with
  | nil =>
      rw [List.foldl_nil, lastView, h.printed_iff]
      exact (and_iff_right trivial).symm
  | cons v vs ih =>
      have htrimv := htrim v List.mem_cons_self
      rw [List.foldl_cons, lastView, AllFit]
      by_cases hfits : Fits u v
      · have hnext := ih (caught_poll h hgrow.1 htrimv hfits) hgrow.2 fun w hw =>
          htrim w (List.mem_cons_of_mem v hw)
        rw [hnext, and_iff_right hfits]
      · have hlost := (lossy_polls (lossy_poll h hgrow.1 htrimv hfits) hgrow.2).ne
        exact ⟨fun he => absurd he hlost, fun ha => absurd ha.1.1 hfits⟩

/-- The operator sees every line once and in order, up to the last poll, if and
only if every poll gets the whole log without zeros, its newest line is not empty
or all its new lines are, and the last poll ends with a line that is not empty. -/
theorem log_printed_iff {job : Job} {acts : List Act} {w : World}
    (hr : run step (start job) acts = some w) :
    w.poller.printed = printLines (lastView [] (views [] [] acts)) ↔
      AllFit [] (views [] [] acts) ∧ Ends (lastView [] (views [] [] acts)) := by
  have hnone : ∀ line ∈ ([] : List String), Trimmed line := fun line hl => by cases hl
  have hcaught : Caught [] ⟨0, []⟩ := by
    refine ⟨Nat.zero_le _, ?_, le_rfl, rfl, ?_, ?_⟩
    · intro line hl
      cases hl
    · intro he
      cases he
    · intro line hl
      cases hl
  have hpoller : w.poller = (views [] [] acts).foldl (fun p u => p.poll (lastLines u)) ⟨0, []⟩ :=
    run_poller rfl rfl rfl hr
  rw [hpoller]
  exact polls_printed_iff hcaught (views_grow acts (List.prefix_refl _) (List.prefix_refl _))
    (views_trimmed acts hnone hnone)

/-! ## Two jobs -/

instance : DecidablePred Ends := fun lines => inferInstanceAs (Decidable (lines.getLast? ≠ some ""))

instance : DecidablePred NoZero := fun lines =>
  inferInstanceAs (Decidable (∀ line ∈ lines, '\x00' ∉ line.toList))

instance decidableAllFit : ∀ u vs, Decidable (AllFit u vs)
  | _, [] => .isTrue trivial
  | u, v :: vs =>
      haveI := decidableAllFit v vs
      inferInstanceAs (Decidable ((v.length ≤ LOG_TAIL_LINES ∧ NoZero v ∧
        (Ends v ∨ ∀ line ∈ v.drop u.length, line = "")) ∧ AllFit v vs))

instance decidableSpaced : ∀ u vs, Decidable (Spaced u vs)
  | _, [] => .isTrue trivial
  | u, v :: vs =>
      haveI := decidableSpaced v vs
      inferInstanceAs (Decidable (v.length < u.length + LOG_TAIL_LINES ∧ Spaced v vs))

def backupJob : Job := pendingJob "job" "node-1" "create-backup" [] 0

/-- Some lines, and the poll that sees them. -/
def group (n : ℕ) : List Act := List.replicate n (Act.log "copied a segment") ++ [Act.flush 0, .poll]

/-- Two groups with an empty line within the second. -/
def shortRun : List Act :=
  group 2 ++ [Act.log "", .log "done\n", .failedPoll, .flush 0, .poll]

theorem log_printed_iff_short : ∃ w, run step (start backupJob) shortRun = some w ∧
    w.poller.printed = printLines (lastView [] (views [] [] shortRun)) := by
  have hrun : (run step (start backupJob) shortRun).isSome = true := by decide +kernel
  obtain ⟨w, hw⟩ := Option.isSome_iff_exists.mp hrun
  have hfit : AllFit [] (views [] [] shortRun) ∧ Ends (lastView [] (views [] [] shortRun)) := by
    decide +kernel
  exact ⟨w, hw, (log_printed_iff hw).mpr hfit⟩

/-- The window starts to slide at the third poll, and the last line is not printed. -/
def longRun : List Act := group 100 ++ group 100 ++ group 1

theorem line_not_printed : ∃ w, run step (start backupJob) longRun = some w ∧
    Spaced [] (views [] [] longRun) ∧
    w.poller.printed ≠ printLines (lastView [] (views [] [] longRun)) := by
  have hrun : (run step (start backupJob) longRun).any (fun w =>
      w.poller.printed ≠ printLines (lastView [] (views [] [] longRun))) = true := by
    decide +kernel
  obtain ⟨w, hw, hne⟩ := (Option.any_eq_true _ _).mp hrun
  exact ⟨w, hw, by decide +kernel, of_decide_eq_true hne⟩

end MilvusOnprem.JobPolling
