import MilvusOnprem.EtcdClient
import MilvusOnprem.GuardedRuns

/-!
# The endpoint that all calls share

An `EtcdClient` has one index into its endpoints. Every `_post` sends an attempt to the
endpoint that the index stands at, and moves the index on when the attempt fails; so do
the watches when their stream breaks. What an attempt meets is an input. The endpoints
are numbered by their position, and an index is taken modulo their number.

The indices of the attempts that failed are recorded for the statements only.
-/
namespace MilvusOnprem.EndpointFailover

open EtcdClient GuardedRuns

/-- A call of `_post`: before an attempt, behind it until there is an answer, and at its
end. -/
inductive Call (R : Type) where
  | waiting (failed : List ℕ)
  | posted (failed : List ℕ) (sent : ℕ)
  | done (failed : List ℕ) (result : Except Exc R)

/-- A call of `watch_prefix`. -/
inductive Watch where
  | connecting
  | streaming (sent : ℕ)
deriving DecidableEq

structure World (ι κ R : Type) where
  idx : ℕ
  call : ι → Call R
  watch : κ → Watch

/-- The reply of an attempt counts if it is answered. A stream breaks on an error of the
transport or the status; it may also end. -/
inductive Act (ι κ R : Type) where
  | send (i : ι)
  | answer (i : ι) (a : Attempt) (reply : R)
  | connect (j : κ)
  | breaks (j : κ)
  | ends (j : κ)

/-- Whether an attempt makes `_post` go on with the next endpoint. -/
def failsOver : Attempt → Bool
  | .dropped _ | .unanswered _ | .busy _ => true
  | .refused _ | .answered => false

def attemptsFailed (failed : List ℕ) (sent : ℕ) (a : Attempt) : List ℕ :=
  if failsOver a then failed ++ [sent] else failed

section Conditions

variable {ι κ R : Type}

/-! ## Conditions on a step -/

/-- One endpoint of `n` answers every request it gets. -/
def answers (n good : ℕ) (w : World ι κ R) : Act ι κ R → Bool
  | .answer i a _ =>
      match w.call i with
      | .posted _ sent => sent % n ≠ good || a = .answered
      | _ => true
  | .breaks j =>
      match w.watch j with
      | .streaming sent => sent % n ≠ good
      | _ => true
  | _ => true

/-- No endpoint answers with a status that `_post` raises at once. -/
def unrefused : Act ι κ R → Bool
  | .answer _ (.refused _) _ => false
  | _ => true

/-- A failure moves the index only from where the failed request was sent. -/
def fresh (w : World ι κ R) : Act ι κ R → Bool
  | .answer i a _ =>
      match w.call i with
      | .posted _ sent => !failsOver a || sent = w.idx
      | _ => true
  | .breaks j =>
      match w.watch j with
      | .streaming sent => sent = w.idx
      | _ => true
  | _ => true

/-- An attempt that fails was sent to another endpoint. -/
theorem sent_elsewhere {n good : ℕ} {w : World ι κ R} {i : ι} {a : Attempt} {reply : R} {failed : List ℕ} {sent : ℕ}
    (hanswers : answers n good w (.answer i a reply) = true) (hcall : w.call i = .posted failed sent)
    (ha : failsOver a = true) : sent % n ≠ good := by
  simp only [answers, hcall, Bool.or_eq_true, decide_eq_true_eq] at hanswers
  rcases hanswers with h | rfl
  · exact h
  · cases ha

/-- The first index from `first` on that stands at an endpoint. -/
theorem exists_last {n good : ℕ} (hgood : good < n) (first : ℕ) :
    ∃ last, first ≤ last ∧ last < first + n ∧ last % n = good := by
  have hn : 0 < n := Nat.zero_lt_of_lt hgood
  have hmod := Nat.mod_lt first hn
  refine ⟨first + (good + n - first % n) % n, Nat.le_add_right _ _,
    Nat.add_lt_add_left (Nat.mod_lt _ hn) first, ?_⟩
  have hsum : first + (good + n - first % n) = good + n * (first / n + 1) := by
    have hdiv := Nat.div_add_mod first n
    rw [Nat.mul_succ]
    omega
  rw [Nat.add_mod_mod, hsum, Nat.add_mul_mod_self_left, Nat.mod_eq_of_lt hgood]

end Conditions

/-! ## Steps -/

section Steps

variable {ι κ R : Type} [DecidableEq ι] [DecidableEq κ]

def outcome (tries : ℕ) (a : Attempt) (reply : R) : Option (Except Exc R) :=
  (attemptOn (fun s : Unit => (s, .ok reply)) tries () a).2

def step (w : World ι κ R) : Act ι κ R → Option (World ι κ R)
  | .send i =>
      match w.call i with
      | .waiting failed => some { w with call := Function.update w.call i (.posted failed w.idx) }
      | _ => none
  | .answer i a reply =>
      match w.call i with
      | .posted failed sent =>
          some { w with
            idx := if failsOver a then w.idx + 1 else w.idx
            call := Function.update w.call i (match outcome failed.length a reply with
              | none => .waiting (attemptsFailed failed sent a)
              | some result => .done (attemptsFailed failed sent a) result) }
      | _ => none
  | .connect j =>
      match w.watch j with
      | .connecting => some { w with watch := Function.update w.watch j (.streaming w.idx) }
      | _ => none
  | .breaks j =>
      match w.watch j with
      | .streaming _ =>
          some { w with idx := w.idx + 1, watch := Function.update w.watch j .connecting }
      | _ => none
  | .ends j =>
      match w.watch j with
      | .streaming _ => some { w with watch := Function.update w.watch j .connecting }
      | _ => none

/-- A client whose calls and watches are about to start. -/
def start (idx : ℕ) : World ι κ R := ⟨idx, fun _ => .waiting [], fun _ => .connecting⟩

/-- The steps of one call. -/
def own (i : ι) : Act ι κ R → Bool
  | .send i' | .answer i' _ _ => i = i'
  | _ => false

/-! ## What an attempt comes to -/

/-- The ways an attempt can go: another try, the end of the tries, an error that is
raised at once, and a response. -/
inductive Outcome (tries : ℕ) (reply : R) : Attempt → Option (Except Exc R) → Prop
  | again {a} : failsOver a = true → tries < retryDelays.length → Outcome tries reply a none
  | givesUp {a e} : failsOver a = true → retryDelays.length ≤ tries →
      Outcome tries reply a (some (.error e))
  | refused {err e} : Outcome tries reply (.refused err) (some (.error e))
  | response : Outcome tries reply .answered (some (.ok reply))

theorem outcome_cases (tries : ℕ) (a : Attempt) (reply : R) :
    Outcome tries reply a (outcome tries a reply) := by
  have hretry : ∀ {a : Attempt} (err : String), failsOver a = true → Outcome tries reply a (retry tries err) := by
    intro a err ha
    unfold retry
    split_ifs with hlt
    · exact .again ha (Nat.lt_of_succ_lt_succ hlt)
    · exact .givesUp ha (by omega)
  cases a with
  | dropped err => exact hretry err rfl
  | unanswered err => exact hretry err rfl
  | busy text => exact hretry _ rfl
  | refused err => exact .refused
  | answered => exact .response

/-- What a step can do. -/
inductive Steps (w : World ι κ R) : Act ι κ R → World ι κ R → Prop
  | send {i failed} : w.call i = .waiting failed →
      Steps w (.send i) { w with call := Function.update w.call i (.posted failed w.idx) }
  | again {i failed sent a reply} : w.call i = .posted failed sent → failsOver a = true →
      failed.length < retryDelays.length → Steps w (.answer i a reply)
        { w with idx := w.idx + 1, call := Function.update w.call i (.waiting (failed ++ [sent])) }
  | givesUp {i failed sent a reply e} : w.call i = .posted failed sent → failsOver a = true →
      retryDelays.length ≤ failed.length → Steps w (.answer i a reply)
        { w with
          idx := w.idx + 1
          call := Function.update w.call i (.done (failed ++ [sent]) (.error e)) }
  | refused {i failed sent err reply e} : w.call i = .posted failed sent →
      Steps w (.answer i (.refused err) reply)
        { w with call := Function.update w.call i (.done failed (.error e)) }
  | response {i failed sent reply} : w.call i = .posted failed sent →
      Steps w (.answer i .answered reply)
        { w with call := Function.update w.call i (.done failed (.ok reply)) }
  | connect {j} : w.watch j = .connecting →
      Steps w (.connect j) { w with watch := Function.update w.watch j (.streaming w.idx) }
  | breaks {j sent} : w.watch j = .streaming sent → Steps w (.breaks j)
      { w with idx := w.idx + 1, watch := Function.update w.watch j .connecting }
  | ends {j sent} : w.watch j = .streaming sent →
      Steps w (.ends j) { w with watch := Function.update w.watch j .connecting }

theorem steps_of_step {w v : World ι κ R} {act : Act ι κ R} (hs : step w act = some v) :
    Steps w act v := by
  unfold step at hs
  split at hs <;> split at hs <;> cases hs
  · next hcall => exact .send hcall
  · next a reply _ failed sent hcall =>
      have hout := outcome_cases failed.length a reply
      generalize outcome failed.length a reply = out at hout
      cases hout with
      | again ha hlt =>
          simp only [attemptsFailed, ha, if_true]
          exact .again hcall ha hlt
      | givesUp ha hle =>
          simp only [attemptsFailed, ha, if_true]
          exact .givesUp hcall ha hle
      | refused => exact .refused hcall
      | response => exact .response hcall
  · next hwatch => exact .connect hwatch
  · next hwatch => exact .breaks hwatch
  · next hwatch => exact .ends hwatch

/-! ## Calls that raise -/

variable {n good : ℕ}

/-- The attempts that failed went to other endpoints, and a call that has raised has had
all of its attempts. -/
def Missed (n good : ℕ) : Call R → Prop
  | .waiting failed | .posted failed _ =>
      failed.length ≤ retryDelays.length ∧ ∀ sent ∈ failed, sent % n ≠ good
  | .done failed (.error _) =>
      failed.length = retryDelays.length + 1 ∧ ∀ sent ∈ failed, sent % n ≠ good
  | .done _ (.ok _) => True

theorem missed_step {w v : World ι κ R} {act : Act ι κ R} (h : ∀ i, Missed n good (w.call i))
    (hanswers : answers n good w act = true) (hunrefused : unrefused act = true)
    (hs : step w act = some v) : ∀ i, Missed n good (v.call i) := by
  have hset : ∀ (i : ι) (c : Call R), Missed n good c → ∀ k, Missed n good (Function.update w.call i c k) := by
    intro i c hc k
    rw [Function.update_apply]
    split_ifs
    · exact hc
    · exact h k
  have hposted : ∀ {i failed sent}, w.call i = .posted failed sent →
      failed.length ≤ retryDelays.length ∧ ∀ s ∈ failed, s % n ≠ good := by
    intro i failed sent hcall
    have hi := h i
    rwa [hcall] at hi
  have hsnoc : ∀ {failed : List ℕ} {sent : ℕ}, (∀ s ∈ failed, s % n ≠ good) → sent % n ≠ good →
      ∀ s ∈ failed ++ [sent], s % n ≠ good := by
    intro failed sent hfailed hsent s hmem
    rcases List.mem_append.mp hmem with hmem | hmem
    · exact hfailed s hmem
    · exact List.mem_singleton.mp hmem ▸ hsent
  cases steps_of_step hs with
  | @send i failed hcall =>
      have hi := h i
      rw [hcall] at hi
      exact hset _ _ hi
  | again hcall ha hlt =>
      obtain ⟨-, helse⟩ := hposted hcall
      refine hset _ _ ⟨?_, hsnoc helse (sent_elsewhere hanswers hcall ha)⟩
      rw [List.length_append, List.length_singleton]
      exact hlt
  | givesUp hcall ha hle =>
      obtain ⟨hge, helse⟩ := hposted hcall
      refine hset _ _ ⟨?_, hsnoc helse (sent_elsewhere hanswers hcall ha)⟩
      rw [List.length_append, List.length_singleton, le_antisymm hge hle]
  | refused hcall => cases hunrefused
  | response hcall => exact hset _ _ trivial
  | connect _ => exact h
  | breaks _ => exact h
  | ends _ => exact h

/-! ## Runs in which no failure is stale -/

/-- A call that is not over has failed no more often than the index has moved since
`first`, and a call that is over has returned a response. -/
def InTime (first idx : ℕ) : Call R → Prop
  | .waiting failed | .posted failed _ => first + failed.length ≤ idx
  | .done _ result => ∃ reply, result = .ok reply

theorem InTime.mono {first idx idx' : ℕ} {c : Call R} (h : InTime first idx c) (hle : idx ≤ idx') :
    InTime first idx' c := by
  cases c with
  | waiting failed => exact le_trans h hle
  | posted failed sent => exact le_trans h hle
  | done failed result => exact h

/-- The index has not moved past the next one of the endpoint that answers. -/
structure Closing (first last : ℕ) (w : World ι κ R) : Prop where
  reached : w.idx ≤ last
  calls : ∀ i, InTime first w.idx (w.call i)

theorem closing_step {first last : ℕ} {w v : World ι κ R} {act : Act ι κ R} (h : Closing first last w)
    (hlast : last % n = good) (hshort : last < first + (retryDelays.length + 1))
    (hanswers : answers n good w act = true) (hunrefused : unrefused act = true)
    (hfresh : fresh w act = true) (hs : step w act = some v) : Closing first last v := by
  -- a failure from where the index stands is not one of the endpoint that answers
  have hmoves : ∀ {sent}, sent = w.idx → sent % n ≠ good → w.idx < last := by
    intro sent hsent helse
    refine lt_of_le_of_ne h.reached fun heq => helse ?_
    rw [hsent, heq, hlast]
  have hattempt : ∀ {i a reply failed sent}, act = .answer i a reply → w.call i = .posted failed sent →
      failsOver a = true → w.idx < last := by
    rintro i a reply failed sent rfl hcall ha
    simp only [fresh, hcall, ha, Bool.not_true, Bool.false_or, decide_eq_true_eq] at hfresh
    exact hmoves hfresh (sent_elsewhere hanswers hcall ha)
  have hset : ∀ {i : ι} {c : Call R} {idx : ℕ}, w.idx ≤ idx → InTime first idx c →
      ∀ k, InTime first idx (Function.update w.call i c k) := by
    intro i c idx hle hc k
    rw [Function.update_apply]
    split_ifs
    · exact hc
    · exact (h.calls k).mono hle
  cases steps_of_step hs with
  | @send i failed hcall =>
      have hi := h.calls i
      rw [hcall] at hi
      exact ⟨h.reached, hset le_rfl hi⟩
  | @again i failed sent a reply hcall ha hlt =>
      have hi := h.calls i
      rw [hcall] at hi
      refine ⟨hattempt rfl hcall ha, hset (Nat.le_succ _) ?_⟩
      rw [InTime, List.length_append, List.length_singleton]
      exact Nat.succ_le_succ hi
  | @givesUp i failed sent a reply e hcall ha hle =>
      have hidx := hattempt rfl hcall ha
      have hi : first + failed.length ≤ w.idx := by
        have hi := h.calls i
        rwa [hcall] at hi
      omega
  | refused hcall => cases hunrefused
  | response hcall => exact ⟨h.reached, hset le_rfl ⟨_, rfl⟩⟩
  | connect _ => exact ⟨h.reached, h.calls⟩
  | @breaks j sent hwatch =>
      simp only [fresh, hwatch, decide_eq_true_eq] at hfresh
      simp only [answers, hwatch, decide_eq_true_eq] at hanswers
      exact ⟨hmoves hfresh hanswers, fun k => (h.calls k).mono (Nat.le_succ _)⟩
  | ends _ => exact ⟨h.reached, h.calls⟩

/-! ## The steps of one call -/

/-- The steps that a call has taken. -/
def Call.taken : Call R → ℕ
  | .waiting failed => 2 * failed.length
  | .posted failed _ => 2 * failed.length + 1
  | .done failed (.error _) => 2 * failed.length
  | .done failed (.ok _) => 2 * failed.length + 2

theorem taken_step {w v : World ι κ R} {act : Act ι κ R} (hunrefused : unrefused act = true)
    (hs : step w act = some v) (i : ι) :
    (v.call i).taken = (w.call i).taken + if own i act then 1 else 0 := by
  have hother : ∀ {k : ι} {c : Call R}, i ≠ k → (Function.update w.call k c i).taken =
      (w.call i).taken + if decide (i = k) = true then 1 else 0 := by
    intro k c hne
    rw [Function.update_of_ne hne, decide_eq_false hne]
    rfl
  have hsame : ∀ {c : Call R}, c.taken = (w.call i).taken + 1 →
      (Function.update w.call i c i).taken = (w.call i).taken + if decide (i = i) = true then 1 else 0 := by
    intro c hc
    rw [Function.update_self, decide_eq_true rfl, if_pos rfl, hc]
  cases steps_of_step hs with
  | @send k failed hcall =>
      by_cases hk : i = k
      · subst hk
        exact hsame (by rw [hcall]; rfl)
      · exact hother hk
  | @again k failed sent a reply hcall ha hlt =>
      by_cases hk : i = k
      · subst hk
        refine hsame ?_
        rw [hcall, Call.taken, Call.taken, List.length_append, List.length_singleton]
        omega
      · exact hother hk
  | @givesUp k failed sent a reply e hcall ha hle =>
      by_cases hk : i = k
      · subst hk
        refine hsame ?_
        rw [hcall, Call.taken, Call.taken, List.length_append, List.length_singleton]
        omega
      · exact hother hk
  | refused hcall => cases hunrefused
  | @response k failed sent reply hcall =>
      by_cases hk : i = k
      · subst hk
        exact hsame (by rw [hcall]; rfl)
      · exact hother hk
  | connect _ => rfl
  | breaks _ => rfl
  | ends _ => rfl

theorem taken_run {w v : World ι κ R} {as : List (Act ι κ R)}
    (hunrefused : ∀ act ∈ as, unrefused act = true) (hr : run step w as = some v) (i : ι) :
    (v.call i).taken = (w.call i).taken + as.countP (own i) := by
  induction as generalizing w with
  | nil =>
      cases hr
      rfl
  | cons act as ih =>
      obtain ⟨u, hu, hrest⟩ := run_cons.mp hr
      rw [ih (fun a ha => hunrefused a (List.mem_cons_of_mem _ ha)) hrest,
        taken_step (hunrefused act List.mem_cons_self) hu i, List.countP_cons]
      omega

/-- In every run in which one of at most seven endpoints answers every request, and none
refuses one: a call that raises has had seven attempts, all of them at other endpoints.
If, besides, every failure moves the index only from where the failed request was sent, no
call raises, and every call has returned a response after `2 * n` steps of its own. -/
theorem calls_return (hn : n ≤ 7) (hgood : good < n) {first : ℕ} {as : List (Act ι κ R)}
    {w : World ι κ R}
    (hanswers : Keeps step (fun w act => answers n good w act = true) (start first) as)
    (hunrefused : ∀ act ∈ as, unrefused act = true) (hr : run step (start first) as = some w) :
    (∀ i failed e, w.call i = .done failed (.error e) →
      failed.length = 7 ∧ ∀ sent ∈ failed, sent % n ≠ good) ∧
    (Keeps step (fun w act => fresh w act = true) (start first) as → ∀ i,
      (∃ failed reply, w.call i = .done failed (.ok reply)) ∨
        as.countP (own i) < 2 * n ∧ ((step w (.send i)).isSome = true ∨
          ∀ a reply, (step w (.answer i a reply)).isSome = true)) := by
  have hguard := keeps_and_forall hanswers hunrefused
  constructor
  · have hinit : ∀ i, Missed n good ((start first : World ι κ R).call i) := fun _ =>
      ⟨Nat.zero_le _, fun _ h => absurd h List.not_mem_nil⟩
    have hmissed : ∀ i, Missed n good (w.call i) :=
      run_guarded (I := fun w => ∀ i, Missed n good (w.call i))
        (fun s a t hs hg ht => missed_step hs hg.1 hg.2 ht) hinit hguard hr
    intro i failed e hcall
    have hi := hmissed i
    rwa [hcall] at hi
  · intro hfresh i
    obtain ⟨last, hfirst, hlt, hlast⟩ := exists_last hgood first
    have hinit : Closing first last (start first : World ι κ R) := ⟨hfirst, fun _ => Nat.le_refl first⟩
    have hclosing : Closing first last w :=
      run_guarded (I := Closing first last)
        (fun s a t hs hg ht => closing_step hs hlast (lt_of_lt_of_le hlt (Nat.add_le_add_left hn first))
          hg.1.1 hg.1.2 hg.2 ht) hinit (keeps_and hguard hfresh) hr
    have hi := hclosing.calls i
    have hidx := hclosing.reached
    have htaken := taken_run hunrefused hr i
    have hstart : ((start first : World ι κ R).call i).taken = 0 := rfl
    rw [hstart, Nat.zero_add] at htaken
    cases hcall : w.call i with
    | waiting failed =>
        rw [hcall] at hi htaken
        have hfailed : first + failed.length ≤ w.idx := hi
        have hcount : 2 * failed.length = as.countP (own i) := htaken
        exact .inr ⟨by omega, .inl (by simp only [step, hcall]; rfl)⟩
    | posted failed sent =>
        rw [hcall] at hi htaken
        have hfailed : first + failed.length ≤ w.idx := hi
        have hcount : 2 * failed.length + 1 = as.countP (own i) := htaken
        exact .inr ⟨by omega, .inr fun a reply => by simp only [step, hcall]; rfl⟩
    | done failed result =>
        rw [hcall] at hi
        obtain ⟨reply, rfl⟩ := hi
        exact .inl ⟨failed, reply, rfl⟩

end Steps

/-- Two calls of a client, with one watch. -/
abbrev Small := World (Fin 2) (Fin 1) Unit

/-- The first endpoint is down and the second one answers. -/
def oneFailure : List (Act (Fin 2) (Fin 1) Unit) :=
  [.send 0, .answer 0 (.dropped "refused") (), .send 0, .send 1, .answer 0 .answered (), .answer 1 .answered ()]

theorem calls_return_oneFailure : ∃ w : Small, run step (start 0) oneFailure = some w ∧
    (∀ i failed e, w.call i = .done failed (.error e) →
      failed.length = 7 ∧ ∀ sent ∈ failed, sent % 2 ≠ 1) ∧
    ∀ i, (∃ failed reply, w.call i = .done failed (.ok reply)) ∨
      oneFailure.countP (own i) < 2 * 2 ∧ ((step w (.send i)).isSome = true ∨
        ∀ a reply, (step w (.answer i a reply)).isSome = true) := by
  have hanswers : (run (checked step (answers 2 1)) (start 0 : Small) oneFailure).isSome = true := by
    decide
  have hfresh : (run (checked step fresh) (start 0 : Small) oneFailure).isSome = true := by
    decide
  obtain ⟨w, hw⟩ := Option.isSome_iff_exists.mp hanswers
  obtain ⟨v, hv⟩ := Option.isSome_iff_exists.mp hfresh
  obtain ⟨hkeeps, hrun⟩ := keeps_of_checked hw
  obtain ⟨hall, hreturn⟩ := calls_return (by decide) (by decide) hkeeps (by decide) hrun
  exact ⟨w, hrun, hall, hreturn (keeps_of_checked hv).1⟩

/-- The first endpoint refuses a request, as one with a broken store does. -/
def oneRefusal : List (Act (Fin 2) (Fin 1) Unit) := [.send 0, .answer 0 (.refused "500") ()]

/-- Both calls fail at the first endpoint and move the index on by two. -/
def inStep : List (Act (Fin 2) (Fin 1) Unit) :=
  (List.replicate 7
    [.send 0, .send 1, .answer 0 (.dropped "refused") (), .answer 1 (.dropped "refused") ()]).flatten

/-- The call has raised. -/
def hasRaised (w : Small) (i : Fin 2) : Bool :=
  match w.call i with
  | .done _ (.error _) => true
  | _ => false

/-- One of two endpoints answers every request. A call raises because the other one
refuses a request; and two calls raise that fail at the other one at the same time,
seven times. -/
theorem calls_raise :
    (∃ w : Small, Keeps step (fun w act => answers 2 1 w act = true) (start 0) oneRefusal ∧
      run step (start 0) oneRefusal = some w ∧ hasRaised w 0 = true) ∧
    ∃ w : Small, Keeps step (fun w act => answers 2 1 w act = true) (start 0) inStep ∧
      run step (start 0) inStep = some w ∧ hasRaised w 0 = true ∧ hasRaised w 1 = true := by
  have hraised : ∀ (as : List (Act (Fin 2) (Fin 1) Unit)) (test : Small → Bool),
      (run (checked step (answers 2 1)) (start 0 : Small) as).any test = true →
      ∃ w, Keeps step (fun w act => answers 2 1 w act = true) (start 0) as ∧
        run step (start 0) as = some w ∧ test w = true := by
    intro as test htest
    obtain ⟨w, hw, hw'⟩ := (Option.any_eq_true _ _).mp htest
    exact ⟨w, (keeps_of_checked hw).1, (keeps_of_checked hw).2, hw'⟩
  refine ⟨hraised oneRefusal (fun w => hasRaised w 0) (by decide), ?_⟩
  obtain ⟨w, hkeeps, hrun, htest⟩ :=
    hraised inStep (fun w => hasRaised w 0 && hasRaised w 1) (by decide +kernel)
  exact ⟨w, hkeeps, hrun, Bool.and_eq_true_iff.mp htest⟩

end MilvusOnprem.EndpointFailover
