import MilvusOnprem.RemoveNode
import Mathlib.Data.List.TakeWhile

/-!
# Draining before the delete

When a remove-node job goes on to delete the target's topology entry, seen over
whole runs of the job. Everything the job reads is an input of the run, answers
from etcd included, so the runs cover every behaviour of the other parties.

A status answer is conclusive when the command succeeded and printed a list of
pools in which the target's pool is complete or does not occur. Which records
are those of the target's pool is a parameter: the source only looks for the
first one whose command line contains the target's URL fragment.
-/
namespace MilvusOnprem.RemoveNode

open PythonText EtcdClient

/-! ## What a status answer says -/

/-- A pool as the status command prints it. -/
def isPool : Json → Bool
  | .obj pool =>
      (match Json.field "cmdline" pool with
        | some (.str _) => true
        | _ => false) &&
      (match Json.field "decommissionInfo" pool with
        | none | some .null | some (.obj _) => true
        | _ => false)
  | _ => false

/-- The pools of a successful answer that is a list of pools. -/
def poolList (r : CommandResult) : Option (List Json) :=
  if r.rc = 0 then
    match JsonText.loads r.out with
    | some (.arr pools) => if pools.all isPool then some pools else none
    | _ => none
  else none

def hasFragment (fragment : String) : Json → Bool
  | .obj pool =>
      match Json.field "cmdline" pool with
      | some (.str s) => contains s fragment
      | _ => false
  | _ => false

def reportsComplete : Json → Bool
  | .obj pool =>
      match Json.field "decommissionInfo" pool with
      | some (.obj info) => flag "complete" info
      | _ => false
  | _ => false

/-- The answer is a pool list that shows the target's pool complete or lacks it. -/
def conclusive (own : Json → Bool) (r : CommandResult) : Bool :=
  (poolList r).any fun pools => pools.all fun p => !own p || reportsComplete p

/-- The answer is a pool list in which the loop over the pools stops at the
target's pool, if that is there. -/
def readsOwn (own : Json → Bool) (fragment : String) (r : CommandResult) : Bool :=
  (poolList r).any fun pools =>
    pools.all fun p => !own p || decide (pools.find? (hasFragment fragment) = some p)

/-- The two states the polling loop takes for the end of the decommission. -/
def Finished (res : Except Exc PoolState) : Prop := res = .ok .complete ∨ res = .ok .missing

theorem decommissionInfo_of_isPool {pool : List (String × Json)} (h : isPool (.obj pool) = true) :
    ∃ info, decommissionInfo pool = .ok info ∧
      reportsComplete (.obj pool) = flag "complete" info := by
  simp only [isPool, Bool.and_eq_true] at h
  obtain ⟨-, h⟩ := h
  cases hf : Json.field "decommissionInfo" pool with
  | none => exact ⟨[], by simp [decommissionInfo, hf, Json.truthy],
      by simp only [reportsComplete, hf]; rfl⟩
  | some j =>
      cases j with
      | null => exact ⟨[], by simp [decommissionInfo, hf, Json.truthy],
          by simp only [reportsComplete, hf]; rfl⟩
      | obj info => exact ⟨info, by simp [decommissionInfo, hf], by simp [reportsComplete, hf]⟩
      | _ =>
          rw [hf] at h
          cases h

theorem startState_not_finished (j : Json) : ¬ Finished (startState j) := by
  unfold Finished startState
  split
  · split_ifs <;> simp
  · split_ifs <;> simp

/-- The state of a well-formed pool is final exactly if the pool is complete. -/
theorem poolState_finished {pool : List (String × Json)} (h : isPool (.obj pool) = true) :
    Finished (poolState pool) ↔ reportsComplete (.obj pool) = true := by
  obtain ⟨info, hinfo, hcomplete⟩ := decommissionInfo_of_isPool h
  rw [hcomplete]
  simp only [poolState, hinfo, bind, Except.bind]
  by_cases hc : flag "complete" info = true
  · simp [hc, Finished]
  · refine iff_of_false ?_ hc
    rw [if_neg hc]
    split_ifs
    · simp [Finished]
    · simp [Finished]
    · exact startState_not_finished _

/-- The loop over well-formed pools ends at the target's pool. -/
theorem poolsState_finished {fragment : String} {pools : List Json}
    (h : pools.all isPool = true) :
    Finished (poolsState fragment pools) ↔
      (pools.find? (hasFragment fragment)).all reportsComplete = true := by
  induction pools with
  | nil => simp [poolsState, Finished]
  | cons p ps ih =>
      simp only [List.all_cons, Bool.and_eq_true] at h
      obtain ⟨hp, hps⟩ := h
      cases p with
      | obj pool =>
          have hcmd : ∃ s, Json.field "cmdline" pool = some (.str s) := by
            simp only [isPool, Bool.and_eq_true] at hp
            have hc := hp.1
            split at hc
            · next s hs => exact ⟨s, hs⟩
            · cases hc
          obtain ⟨s, hs⟩ := hcmd
          simp only [poolsState, hs, Option.getD_some, inCmdline, bind, Except.bind]
          by_cases hhit : contains s fragment = true
          · have hfrag : hasFragment fragment (.obj pool) = true := by
              simp only [hasFragment, hs, hhit]
            rw [List.find?_cons_of_pos hfrag, Option.all_some, if_pos hhit]
            exact poolState_finished hp
          · have hfrag : ¬ hasFragment fragment (.obj pool) = true := by
              simp only [hasFragment, hs, hhit]
              exact Bool.false_ne_true
            rw [List.find?_cons_of_neg hfrag, if_neg hhit]
            exact ih hps
      | _ => cases hp

/-- No value starts with a blank of `str.isspace`. -/
theorem value_space {c : Char} (h : isSpace c = true) (fuel : ℕ) (cs : List Char) :
    JsonText.value fuel (c :: cs) = none := by
  have hall : ∀ k ∈ spaces, JsonText.value fuel (Char.ofNat k :: cs) = none := by
    cases fuel with
    | zero =>
        intro k _
        rfl
    | succ fuel =>
        simp only [spaces, List.forall_mem_cons]
        refine ⟨rfl, rfl, rfl, rfl, rfl, rfl, rfl, rfl, rfl, rfl, rfl, rfl, rfl, rfl, rfl, rfl, rfl,
          rfl, rfl, rfl, rfl, rfl, rfl, rfl, rfl, rfl, rfl, rfl, rfl, ?_⟩
        intro k hk
        cases hk
  have hc := hall c.toNat (List.contains_iff_mem.mp h)
  rwa [Char.ofNat_toNat] at hc

theorem strip_ne_empty_of_loads {s : String} {j : Json} (h : JsonText.loads s = some j) :
    strip s ≠ "" := by
  intro hs
  have hblank : ∀ c ∈ s.toList, isSpace c = true := by
    have hl := congrArg String.toList hs
    simp only [strip, stripChars, String.toList_ofList, String.toList_empty,
      List.reverse_eq_nil_iff, List.dropWhile_eq_nil_iff, List.mem_reverse] at hl
    apply List.dropWhile_eq_nil_iff.mp
    by_contra hne
    have hhead := List.head_dropWhile_not isSpace hne
    rw [hl _ (List.head_mem hne)] at hhead
    cases hhead
  obtain ⟨v, hv, -⟩ := Option.bind_eq_some_iff.mp h
  cases hcs : JsonText.skipBlanks s.toList with
  | nil =>
      rw [hcs] at hv
      cases hv
  | cons c cs =>
      have hmem : c ∈ JsonText.skipBlanks s.toList := by
        rw [hcs]
        exact List.mem_cons_self
      have hspace := hblank c ((List.dropWhile_sublist _).mem hmem)
      rw [hcs, value_space hspace] at hv
      cases hv

theorem poolList_some {r : CommandResult} {pools : List Json} (h : poolList r = some pools) :
    r.rc = 0 ∧ JsonText.loads r.out = some (.arr pools) ∧ pools.all isPool = true := by
  unfold poolList at h
  split_ifs at h with hrc
  split at h
  · next hl =>
      split_ifs at h with hall
      cases h
      exact ⟨hrc, hl, hall⟩
  · cases h

/-- On a pool list the code's state is final exactly if the pool it stops at is
complete, or it stops at none. -/
theorem decommissionState_finished {fragment : String} {r : CommandResult} {pools : List Json}
    (h : poolList r = some pools) :
    Finished (decommissionState fragment r) ↔
      (pools.find? (hasFragment fragment)).all reportsComplete = true := by
  obtain ⟨hrc, hl, hall⟩ := poolList_some h
  have hstrip := strip_ne_empty_of_loads hl
  simp only [decommissionState, hrc, hstrip, hl, ne_eq, not_true_eq_false, false_and,
    not_false_eq_true, if_true, if_false]
  exact poolsState_finished hall

/-- A final state that was read off the target's pool is what the answer says. -/
theorem conclusive_of_finished {own : Json → Bool} {fragment : String} {r : CommandResult}
    (hown : readsOwn own fragment r = true) (hfin : Finished (decommissionState fragment r)) :
    conclusive own r = true := by
  cases hlist : poolList r with
  | none => simp [readsOwn, hlist] at hown
  | some pools =>
      rw [decommissionState_finished hlist] at hfin
      rw [readsOwn, hlist, Option.any_some, List.all_eq_true] at hown
      rw [conclusive, hlist, Option.any_some, List.all_eq_true]
      intro p hp
      have hstop := hown p hp
      cases hd : own p with
      | false => rfl
      | true =>
          rw [hd, Bool.not_true, Bool.false_or, decide_eq_true_eq] at hstop
          rwa [hstop, Option.all_some] at hfin

/-! ## Runs of a job -/

/-- An input of a run: the result of the call in flight, or what the job reads
outside etcd. -/
inductive JobInput where
  | reply (res : Except Exc Reply)
  | input (i : RemoveJob.Input)

/-- One step of a job on its own. -/
def jobStep (j : RemoveJob) (pc : RemovePc) : JobInput → Option RemovePc
  | .reply res => (RemoveJob.request pc).map fun _ => j.answered pc res
  | .input i => j.proceed pc i

/-- The status answer a step consumes. -/
def statusAnswer : RemovePc × JobInput → Option CommandResult
  | (.prechecking _, .input (.command r)) => some r
  | (.polling _ _, .input (.command r)) => some r
  | _ => none

/-- The status answers of a run, in order. -/
def statusAnswers (j : RemoveJob) (inputs : List JobInput) : List CommandResult :=
  (GuardedRuns.trace (jobStep j) .resolving inputs).filterMap statusAnswer

/-- What the status answers so far say at each point of a job. -/
def Heard : RemovePc → List CommandResult → Prop
  | .resolving, rs | .guarding _, rs | .leaderRead _, rs | .preparing _, rs | .aliasing _, rs
  | .prechecking _, rs => rs = []
  | .canceling _, rs | .starting _, rs => ∃ first, rs = [first]
  | .polling _ _, rs => ∃ first rounds, rs = first :: rounds
  | .deleting t, rs => ∃ first rounds last, rs = first :: (rounds ++ [last]) ∧
      Finished (decommissionState t.fragment last)
  | _, _ => True

theorem heard_reply {j : RemoveJob} {pc : RemovePc} {rs : List CommandResult}
    (res : Except Exc Reply) (h : Heard pc rs) : Heard (j.answered pc res) rs := by
  unfold RemoveJob.answered
  split <;> try exact h
  · rcases resolve_cases j.ip (Topology.parseTopology _) with ⟨e, he⟩ | ⟨name, -, he⟩
    · rw [he]
      trivial
    · rw [he]
      exact h
  · rcases checkLeader_cases j.ip _ _ with ⟨e, he⟩ | he
    · rw [he]
      trivial
    · rw [he]
      exact h
  all_goals first | trivial | (split <;> trivial)

/-- A step of the job keeps the record of what it heard. -/
theorem heard_step {j : RemoveJob} {pc qc : RemovePc} {rs : List CommandResult} {i : JobInput}
    (h : Heard pc rs) (hs : jobStep j pc i = some qc) :
    Heard qc (rs ++ (statusAnswer (pc, i)).toList) := by
  cases i with
  | reply res =>
      obtain ⟨r, -, hq⟩ := Option.map_eq_some_iff.mp hs
      have hnone : statusAnswer (pc, .reply res) = none := by
        cases pc <;> rfl
      rw [← hq, hnone, Option.toList_none, List.append_nil]
      exact heard_reply res h
  | input i =>
      simp only [jobStep, RemoveJob.proceed] at hs
      split at hs <;> first | contradiction | obtain rfl := Option.some.inj hs
      · next name isLeader file =>
          have hrs : rs = [] := h
          rw [hrs]
          rcases checkLocal_cases name isLeader file with ⟨e, he⟩ | he
          · rw [he]
            trivial
          · rw [he]
            rfl
      · next name isLeader file =>
          have hrs : rs = [] := h
          rw [hrs]
          rfl
      · next t r =>
          have hrs : rs = [] := h
          rw [hrs]
          rfl
      · next t r =>
          have hrs : rs = [] := h
          rw [hrs]
          rcases prechecked_cases t (decommissionState t.fragment r) with ⟨e, he⟩ | he | he | he
          · rw [he]
            trivial
          · rw [he]
            exact ⟨r, [], rfl⟩
          · rw [he]
            exact ⟨r, rfl⟩
          · rw [he]
            exact ⟨r, rfl⟩
      · next t r =>
          obtain ⟨first, hrs⟩ := h
          rw [hrs]
          exact ⟨first, rfl⟩
      · next t r =>
          obtain ⟨first, hrs⟩ := h
          rcases started_cases t r with ⟨e, he⟩ | he
          · rw [he]
            trivial
          · rw [he, hrs]
            exact ⟨first, [], rfl⟩
      · next t elapsed r =>
          obtain ⟨first, rounds, hrs⟩ := h
          rcases polled_cases t elapsed (decommissionState t.fragment r) with
            ⟨e, he⟩ | ⟨-, he⟩ | ⟨hfin, he⟩
          · rw [he]
            trivial
          · rw [he, hrs]
            exact ⟨first, rounds ++ [r], rfl⟩
          · rw [he, hrs]
            exact ⟨first, rounds, r, rfl, hfin⟩
      · trivial
      · next t isLeader file => split <;> trivial
      · next t isLeader file => split <;> trivial

/-- Every run of a job keeps the record. -/
theorem heard_run {j : RemoveJob} {inputs : List JobInput} {pc : RemovePc}
    (hr : GuardedRuns.run (jobStep j) .resolving inputs = some pc) :
    Heard pc (statusAnswers j inputs) := by
  refine GuardedRuns.run_history
    (I := fun pc past => Heard pc (past.filterMap statusAnswer)) ?_ rfl hr
  intro s past a t h hs
  rw [List.filterMap_append]
  have hstep := heard_step h hs
  cases ha : statusAnswer (s, a) with
  | none => simpa [ha] using hstep
  | some r => simpa [ha] using hstep

/-- When a job reaches the delete of its target's topology entry, some status
answer of its run was conclusive, provided that the answer that ended the polling
loop was a pool list read at the target's pool, or that the answer before the
start was conclusive. -/
theorem delete_conclusive {own : Json → Bool} {j : RemoveJob} {inputs : List JobInput} {t : Target}
    (hr : GuardedRuns.run (jobStep j) .resolving inputs = some (.deleting t))
    (hread : (∃ r, (statusAnswers j inputs).getLast? = some r ∧ readsOwn own t.fragment r = true) ∨
      ∃ r, (statusAnswers j inputs).head? = some r ∧ conclusive own r = true) :
    ∃ r ∈ statusAnswers j inputs, conclusive own r = true := by
  obtain ⟨first, rounds, last, hrs, hfin⟩ := heard_run hr
  have hlast : (first :: (rounds ++ [last])).getLast? = some last := by
    rw [← List.cons_append, List.getLast?_append]
    rfl
  rw [hrs, hlast, List.head?_cons] at hread
  rw [hrs]
  rcases hread with ⟨r, hr', hown⟩ | ⟨r, hr', hc⟩
  · cases hr'
    exact ⟨last, by simp, conclusive_of_finished hown hfin⟩
  · cases hr'
    exact ⟨first, List.mem_cons_self, hc⟩

/-- The status of the pool at 10.0.0.2. -/
def poolAnswer (info : List (String × Json)) : CommandResult :=
  ⟨0, JsonText.dumps (.arr [.obj [("cmdline", .str "http://10.0.0.2:9000/drive1"),
    ("decommissionInfo", .obj info)]]), ""⟩

/-- A removal of 10.0.0.2 from a cluster of two whose second status answer is
the given one. -/
def removalOfTwo (last : CommandResult) : List JobInput :=
  [.reply (.ok (.entries [
      ("/cluster/topology/peers/node-1", JsonText.dumps (.obj [("ip", .str "10.0.0.1")])),
      ("/cluster/topology/peers/node-2", JsonText.dumps (.obj [("ip", .str "10.0.0.2")]))])),
    .input (.look true none), .reply (.ok (.value none)), .input (.look true none),
    .input (.command ⟨0, "", ""⟩), .input (.command (poolAnswer [])),
    .input (.command ⟨0, "", ""⟩), .input (.command last)]

/-- The record of the pool at 10.0.0.2. -/
def atSecond : Json → Bool
  | .obj pool => Json.field "cmdline" pool = some (.str "http://10.0.0.2:9000/drive1")
  | _ => false

theorem delete_conclusive_complete :
    ∃ r ∈ statusAnswers ⟨"10.0.0.2"⟩ (removalOfTwo (poolAnswer [("complete", .bool true)])),
      conclusive atSecond r = true :=
  delete_conclusive (t := ⟨"node-2", "10.0.0.2:9000/drive"⟩) (by decide +kernel)
    (.inl ⟨poolAnswer [("complete", .bool true)], by decide +kernel, by decide +kernel⟩)

/-- An error object of the status command ends the loop, and the entry of a pool
that was never drained is deleted. -/
theorem delete_after_error_object :
    GuardedRuns.run (jobStep ⟨"10.0.0.2"⟩) .resolving
        (removalOfTwo ⟨1, JsonText.dumps (.obj [("status", .str "error")]), ""⟩) =
      some (.deleting ⟨"node-2", "10.0.0.2:9000/drive"⟩) ∧
    ¬ ∃ r ∈ statusAnswers ⟨"10.0.0.2"⟩
        (removalOfTwo ⟨1, JsonText.dumps (.obj [("status", .str "error")]), ""⟩),
      conclusive atSecond r = true := by
  decide +kernel

end MilvusOnprem.RemoveNode
