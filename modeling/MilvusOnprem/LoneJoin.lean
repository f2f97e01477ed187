import MilvusOnprem.Joining
import MilvusOnprem.GuardedRuns

/-!
# A join on its own

The runs of one call while nothing else acts on etcd: which failed calls leave
the topology and the membership as they were, and what a repeated call does
while the joiner waits for its answer.

A failed call may have written to etcd in three places: its create, its member
add and the delete of its rollback. When one step of it fails, whether the store
ends as it began depends only on which step this is, on whether its request was
applied all the same, and on the state of the allocated key and of the joiner's URL
before the call.
-/
namespace MilvusOnprem.LoneJoin

open EtcdClient MilvusOnprem.Topology Joining

structure Solo where
  etcd : Etcd
  thread : Thread JoinPc
deriving DecidableEq

inductive Event where
  | input (i : JoinCall.Input)
  | attempt (newId : ℕ) (a : Attempt)
deriving DecidableEq, Repr

def soloStep (c : JoinCall) (w : Solo) : Event → Option Solo
  | .input i => (c.proceed w.thread.pc i).map fun pc => ⟨w.etcd, ⟨pc, 0⟩⟩
  | .attempt newId a =>
      (c.client.attempt newId w.etcd w.thread a).map fun r => ⟨r.1, r.2⟩

def called (c : JoinCall) (s : Etcd) : Solo := ⟨s, ⟨c.start, 0⟩⟩

/-- The steps of a call up to its end. -/
def steps (c : JoinCall) (s : Etcd) (events : List Event) : List (Solo × Event) :=
  GuardedRuns.trace (soloStep c) (called c s) events

/-! ## Which requests reached etcd -/

def isCreate : JoinPc → Bool
  | .creating _ _ _ => true
  | _ => false

def isAdd : JoinPc → Bool
  | .adding _ _ => true
  | _ => false

def isRollback : JoinPc → Bool
  | .rollingBack _ _ => true
  | _ => false

/-- Some attempt at such a point reached etcd. -/
def sent (at' : JoinPc → Bool) (past : List (Solo × Event)) : Bool :=
  past.any fun x =>
    match x.2 with
    | .attempt _ a => at' x.1.thread.pc && a.reaches
    | .input _ => false

/-- The name a call without an entry takes. -/
def allocated (s : Etcd) : String :=
  allocateNextName ((parseTopology (withPrefix TOPOLOGY_PREFIX s.kv)).map Prod.fst)

def allocatedKey (s : Etcd) : String := TOPOLOGY_PREFIX ++ allocated s

/-- The topology prefix and the membership are the same. -/
def Unchanged (s t : Etcd) : Prop :=
  withPrefix TOPOLOGY_PREFIX t.kv = withPrefix TOPOLOGY_PREFIX s.kv ∧ t.members = s.members

instance (s t : Etcd) : Decidable (Unchanged s t) := inferInstanceAs (Decidable (_ ∧ _))

/-- The steps of a call that can fail. -/
inductive FallibleStep where
  | memberList
  | getPrefix
  | rejoinEnv
  | putIfAbsent
  | joinerEnv
  | memberAdd
  | delete
deriving DecidableEq, Repr

def requestStep : JoinPc → Option FallibleStep
  | .polling _ => some .memberList
  | .reading => some .getPrefix
  | .creating _ _ _ => some .putIfAbsent
  | .adding _ _ => some .memberAdd
  | .rollingBack _ _ => some .delete
  | _ => none

/-- The answer of etcd is an error. -/
def rejected (c : JoinCall) (newId : ℕ) (s : Etcd) (pc : JoinPc) : Bool :=
  (c.request pc).any fun r => !(serve newId s r).2.isOk

/-- The step that fails here: a request that is not tried again or is rejected, or a
`cluster.env` that cannot be read or built. -/
def failedStep (c : JoinCall) (x : Solo × Event) : Option FallibleStep :=
  match x.2 with
  | .attempt newId a =>
      if a.givesUp x.1.thread.tries || a = .answered && rejected c newId x.1.etcd x.1.thread.pc then
        requestStep x.1.thread.pc
      else none
  | .input (.clusterEnv file issuedAt) =>
      match x.1.thread.pc with
      | .rejoining name parsed =>
          if (c.joinerEnv name (parsed.filter fun e => e.1 ≠ name) file issuedAt).isOk then none
          else some .rejoinEnv
      | .building name parsed =>
          if (c.joinerEnv name parsed file issuedAt).isOk then none else some .joinerEnv
      | _ => none
  | .input _ => none

def failures (c : JoinCall) (past : List (Solo × Event)) : List FallibleStep :=
  past.filterMap (failedStep c)

/-- The failure leaves the topology prefix and the membership alone: a create that
fails where the allocated key was free has not reached etcd, the file of a new
joiner fails only where the key held a value (that is not JSON), and a member add
fails where the key was free and has not reached etcd, unless the joiner's URL was
in use. -/
def Harmless (c : JoinCall) (s : Etcd) (past : List (Solo × Event)) : Prop :=
  (.putIfAbsent ∈ failures c past → s.kv.get (allocatedKey s) = none → sent isCreate past = false) ∧
  (.joinerEnv ∈ failures c past → s.kv.get (allocatedKey s) ≠ none) ∧
  (.memberAdd ∈ failures c past → s.kv.get (allocatedKey s) = none ∧
    (sent isAdd past = true → hasURL s.members c.peerUrl = true))

instance (c : JoinCall) (s : Etcd) (past : List (Solo × Event)) : Decidable (Harmless c s past) :=
  inferInstanceAs (Decidable (_ ∧ _ ∧ _))

/-! ## The store as the requests that reached it leave it -/

/-- The key space after a create that reached etcd, or none. -/
def kvCreated (s : Etcd) (created : Bool) (value : String) : OrderedMap String String :=
  if created = true ∧ s.kv.get (allocatedKey s) = none then s.kv.put (allocatedKey s) value
  else s.kv

/-- The key space after the given requests. -/
def kvAfter (s : Etcd) (created rolledBack : Bool) (value : String) : OrderedMap String String :=
  if rolledBack then (kvCreated s created value).erase (allocatedKey s)
  else kvCreated s created value

/-- The membership after the given requests. -/
def MembersAfter (c : JoinCall) (s : Etcd) (added : Bool) (ms : List Member) : Prop :=
  if added = true ∧ hasURL s.members c.peerUrl = false then
    ∃ id, ms = s.members ++ [⟨id, "", [c.peerUrl]⟩]
  else ms = s.members

/-- What the requests sent so far have in common with the point of the call. -/
def Phase (s : Etcd) (value : String) (created added rolledBack : Bool) : JoinPc → Prop
  | .creating name _ v => name = allocated s ∧ v = value ∧ added = false ∧ rolledBack = false
  | .stamping name _ => name = allocated s ∧ created = false ∧ added = false ∧ rolledBack = false
  | .building name _ => name = allocated s ∧ added = false ∧ rolledBack = false
  | .adding name _ => name = allocated s ∧ rolledBack = false
  | .rollingBack name _ => name = allocated s
  | .queued | .waiting _ | .polling _ | .reading | .rejoining _ _ =>
      created = false ∧ added = false ∧ rolledBack = false
  | .returned _ | .raised _ => True

/-- The store and the call as the requests sent so far leave them. -/
def Tracks (c : JoinCall) (s : Etcd) (w : Solo) (past : List (Solo × Event)) : Prop :=
  ∃ value,
    w.etcd.kv = kvAfter s (sent isCreate past) (sent isRollback past) value ∧
    MembersAfter c s (sent isAdd past) w.etcd.members ∧
    Phase s value (sent isCreate past) (sent isAdd past) (sent isRollback past) w.thread.pc

theorem sent_append (at' : JoinPc → Bool) (past : List (Solo × Event)) (x : Solo × Event) :
    sent at' (past ++ [x]) = (sent at' past || sent at' [x]) := by
  simp [sent, List.any_append]

@[simp] theorem sent_attempt (at' : JoinPc → Bool) (w : Solo) (newId : ℕ) (a : Attempt) :
    sent at' [(w, .attempt newId a)] = (at' w.thread.pc && a.reaches) := by
  simp [sent]

@[simp] theorem sent_input (at' : JoinPc → Bool) (w : Solo) (i : JoinCall.Input) :
    sent at' [(w, .input i)] = false := rfl

theorem kvAfter_create (newId : ℕ) (s u : Etcd) (created : Bool) (value : String)
    (h : u.kv = kvAfter s created false value) :
    (serve newId u (.putIfAbsent (allocatedKey s) value)).1.kv = kvAfter s true false value := by
  rw [serve_putIfAbsent]
  simp only [kvAfter, kvCreated, Bool.false_eq_true, if_false, true_and] at h ⊢
  by_cases hfree : s.kv.get (allocatedKey s) = none
  · cases created with
    | true =>
        simp only [hfree, and_self, if_true] at h
        have hget : u.kv.get (allocatedKey s) ≠ none := by
          rw [h, OrderedMap.get_put_self]
          exact Option.some_ne_none value
        rw [if_neg hget, if_pos hfree, h]
    | false =>
        simp only [Bool.false_eq_true, false_and, if_false] at h
        rw [h, if_pos hfree, if_pos hfree]
  · simp only [hfree, and_false, if_false] at h
    rw [h, if_neg hfree, if_neg hfree, h]

theorem kvAfter_rollback (s : Etcd) (created rolledBack : Bool) (value : String) :
    (kvAfter s created rolledBack value).erase (allocatedKey s) = kvAfter s created true value := by
  cases rolledBack with
  | false => simp only [kvAfter, Bool.false_eq_true, if_false, if_true]
  | true =>
      simp only [kvAfter, if_true]
      exact OrderedMap.erase_of_get_none _ (OrderedMap.get_erase_self _ _)

theorem membersAfter_add {c : JoinCall} {s u : Etcd} {added : Bool} (newId : ℕ)
    (h : MembersAfter c s added u.members) :
    MembersAfter c s true (serve newId u (.memberAdd [c.peerUrl])).1.members := by
  simp only [serve, List.any_cons, List.any_nil, Bool.or_false, MembersAfter, true_and] at h ⊢
  cases hurl : hasURL s.members c.peerUrl with
  | true =>
      simp only [hurl, Bool.true_eq_false, and_false, if_false] at h ⊢
      rw [h, hurl, if_pos rfl, h]
  | false =>
      simp only [hurl, and_true] at h
      simp only [if_true]
      split_ifs at h with hadded
      · obtain ⟨id, hid⟩ := h
        have hthere : hasURL u.members c.peerUrl = true := by
          rw [hid]
          simp [hasURL]
        rw [if_pos hthere]
        exact ⟨id, hid⟩
      · rw [h, hurl, if_neg Bool.false_ne_true]
        exact ⟨newId, rfl⟩

/-- A call goes on to a point with the same requests sent. -/
theorem Tracks.goto {c : JoinCall} {s u : Etcd} {pc qc : JoinPc} {k k' : ℕ}
    {past : List (Solo × Event)} (h : Tracks c s ⟨u, ⟨pc, k⟩⟩ past)
    (hphase : ∀ value created added rolledBack, Phase s value created added rolledBack pc →
      Phase s value created added rolledBack qc) : Tracks c s ⟨u, ⟨qc, k'⟩⟩ past := by
  obtain ⟨value, hkv, hms, hp⟩ := h
  exact ⟨value, hkv, hms, hphase _ _ _ _ hp⟩

/-- What the request in flight does to the store. -/
theorem Tracks.served {c : JoinCall} {s u : Etcd} {pc : JoinPc} {k : ℕ}
    {past : List (Solo × Event)} (h : Tracks c s ⟨u, ⟨pc, k⟩⟩ past) (newId : ℕ) (a : Attempt)
    {r : Request} (hr : c.request pc = some r) :
    Tracks c s ⟨if a.reaches then (serve newId u r).1 else u, ⟨pc, k⟩⟩
      (past ++ [(⟨u, ⟨pc, k⟩⟩, .attempt newId a)]) := by
  obtain ⟨value, hkv, hms, hp⟩ := h
  unfold Tracks
  simp only [sent_append, sent_attempt]
  cases ha : a.reaches with
  | false =>
      simp only [Bool.and_false, Bool.or_false, Bool.false_eq_true, if_false]
      exact ⟨value, hkv, hms, hp⟩
  | true =>
      simp only [Bool.and_true, if_true]
      cases pc with
      | polling deadline =>
          cases hr
          simp only [isCreate, isAdd, isRollback, Bool.or_false]
          exact ⟨value, hkv, hms, hp⟩
      | reading =>
          cases hr
          simp only [isCreate, isAdd, isRollback, Bool.or_false]
          exact ⟨value, hkv, hms, hp⟩
      | creating name parsed v =>
          cases hr
          obtain ⟨hname, hv, hadd, hroll⟩ := hp
          subst hname
          subst hv
          simp only [isCreate, isAdd, isRollback, Bool.or_false, Bool.or_true]
          rw [hroll] at hkv
          refine ⟨v, ?_, ?_, rfl, rfl, hadd, hroll⟩
          · rw [hroll]
            exact kvAfter_create newId s u _ v hkv
          · rw [serve_putIfAbsent]
            split_ifs
            · exact hms
            · exact hms
      | adding name env =>
          cases hr
          simp only [isCreate, isAdd, isRollback, Bool.or_false, Bool.or_true]
          refine ⟨value, ?_, membersAfter_add newId hms, hp⟩
          simp only [serve, List.any_cons, List.any_nil, Bool.or_false]
          split_ifs
          · exact hkv
          · exact hkv
      | rollingBack name cause =>
          cases hr
          have hname : name = allocated s := hp
          subst hname
          simp only [isCreate, isAdd, isRollback, Bool.or_false, Bool.or_true]
          refine ⟨value, ?_, hms, rfl⟩
          change u.kv.erase (allocatedKey s) = _
          rw [hkv]
          exact kvAfter_rollback s _ _ value
      | _ => cases hr

/-- A step of the call is tracked. -/
theorem tracks_step {c : JoinCall} {s : Etcd} {w v : Solo} {past : List (Solo × Event)}
    {e : Event} (h : Tracks c s w past) (hstep : soloStep c w e = some v) :
    Tracks c s v (past ++ [(w, e)]) := by
  cases e with
  | input i =>
      obtain ⟨qc, hqc, hv⟩ := Option.map_eq_some_iff.mp hstep
      subst hv
      have hsame : Tracks c s w (past ++ [(w, .input i)]) := by
        unfold Tracks
        simp only [sent_append, sent_input, Bool.or_false]
        exact h
      obtain ⟨u, pc, k⟩ := w
      cases JoinCall.proceeds_of_proceed hqc with
      | lock now => exact hsame.goto fun _ _ _ _ hp => hp
      | poll hnow => exact hsame.goto fun _ _ _ _ hp => hp
      | timeout hnow => exact hsame.goto fun _ _ _ _ _ => trivial
      | rejoined henv => exact hsame.goto fun _ _ _ _ _ => trivial
      | rejoinFailed => exact hsame.goto fun _ _ _ _ _ => trivial
      | @stamp name parsed now =>
          obtain ⟨value, hkv, hms, hname, hcreate, hadd, hroll⟩ := hsame
          refine ⟨c.infoValue name now, ?_, hms, hname, rfl, hadd, hroll⟩
          rw [hcreate, hroll] at hkv ⊢
          exact hkv
      | built henv => exact hsame.goto fun _ _ _ _ hp => ⟨hp.1, hp.2.2⟩
      | buildFailed he => exact hsame.goto fun _ _ _ _ _ => trivial
  | attempt newId a =>
      obtain ⟨⟨u', t⟩, ht, hv⟩ := Option.map_eq_some_iff.mp hstep
      subst hv
      obtain ⟨u, pc, k⟩ := w
      obtain ⟨qc, k'⟩ := t
      have hserved : ∀ r, c.request pc = some r →
          Tracks c s ⟨if a.reaches then (serve newId u r).1 else u, ⟨pc, k⟩⟩
            (past ++ [(⟨u, ⟨pc, k⟩⟩, .attempt newId a)]) := fun r hr => h.served newId a hr
      have hread : ∀ r, r.isRead = true →
          (if a.reaches = true then (serve newId u r).1 else u) = u := by
        intro r hr
        rw [serve_read newId u hr, ite_self]
      cases JoinCall.attempts_of_attempt ht with
      | again hr => exact (hserved _ hr).goto fun _ _ _ _ hp => hp
      | pollFailed =>
          have h' := hserved _ rfl
          rw [hread _ rfl] at h'
          exact h'.goto fun _ _ _ _ hp => hp
      | polled hall => exact (hserved _ rfl).goto fun _ _ _ _ hp => hp
      | unhealthy hall => exact (hserved _ rfl).goto fun _ _ _ _ hp => hp
      | readFailed =>
          have h' := hserved _ rfl
          rw [hread _ rfl] at h'
          exact h'.goto fun _ _ _ _ _ => trivial
      | read =>
          obtain ⟨value, hkv, hms, hp⟩ := hserved _ rfl
          have hu : u.kv = s.kv := by
            have hkv' := hkv
            rw [hp.1, hp.2.2] at hkv'
            exact hkv'
          refine ⟨value, hkv, hms, ?_⟩
          change Phase s value _ _ _ (c.chosen (parseTopology (withPrefix TOPOLOGY_PREFIX u.kv)))
          rcases c.chosen_cases (parseTopology (withPrefix TOPOLOGY_PREFIX u.kv)) with
            ⟨e, he⟩ | ⟨name, -, he⟩ | ⟨-, he⟩
          · rw [he]
            trivial
          · rw [he]
            exact hp
          · rw [he, hu]
            exact ⟨rfl, hp⟩
      | createFailed hup => exact (hserved _ rfl).goto fun _ _ _ _ _ => trivial
      | created => exact (hserved _ rfl).goto fun _ _ _ _ hp => ⟨hp.1, hp.2.2⟩
      | addFailed => exact (hserved _ rfl).goto fun _ _ _ _ hp => hp.1
      | added hurl =>
          have h' := hserved _ rfl
          have hstore : (serve newId u (.memberAdd [c.peerUrl])).1 =
              ⟨u.kv, u.members ++ [⟨newId, "", [c.peerUrl]⟩]⟩ := by
            change hasURL u.members c.peerUrl = false at hurl
            simp [serve, hurl]
          change Tracks c s ⟨(serve newId u (.memberAdd [c.peerUrl])).1, _⟩ _ at h'
          rw [hstore] at h'
          exact h'.goto fun _ _ _ _ _ => trivial
      | rolledBack hend => exact (hserved _ rfl).goto fun _ _ _ _ _ => trivial

theorem tracks_called (c : JoinCall) (s : Etcd) : Tracks c s (called c s) [] := by
  refine ⟨"", rfl, rfl, ?_⟩
  unfold called JoinCall.start
  split_ifs
  · exact ⟨rfl, rfl, rfl⟩
  · trivial

/-! ## When a failed call restores the store -/

theorem get_kvAfter (s : Etcd) (created rolledBack : Bool) (value : String) :
    (kvAfter s created rolledBack value).get (allocatedKey s) =
      if rolledBack = true then none
      else if created = true ∧ s.kv.get (allocatedKey s) = none then some value
      else s.kv.get (allocatedKey s) := by
  unfold kvAfter
  split_ifs with hroll hcreate
  · exact OrderedMap.get_erase_self _ _
  · rw [kvCreated, if_pos hcreate, OrderedMap.get_put_self]
  · rw [kvCreated, if_neg hcreate]

theorem get_kvAfter_of_ne (s : Etcd) (created rolledBack : Bool) (value : String) {key : String}
    (h : allocatedKey s ≠ key) : (kvAfter s created rolledBack value).get key = s.kv.get key := by
  have hcreated : (kvCreated s created value).get key = s.kv.get key := by
    unfold kvCreated
    split_ifs
    · exact OrderedMap.get_put_of_ne _ _ h
    · rfl
  unfold kvAfter
  split_ifs
  · rw [OrderedMap.get_erase_of_ne _ h, hcreated]
  · exact hcreated

/-- The prefix is unchanged exactly if the allocated key is. -/
theorem withPrefix_kvAfter (s : Etcd) (created rolledBack : Bool) (value : String) :
    withPrefix TOPOLOGY_PREFIX (kvAfter s created rolledBack value) =
        withPrefix TOPOLOGY_PREFIX s.kv ↔
      (kvAfter s created rolledBack value).get (allocatedKey s) = s.kv.get (allocatedKey s) := by
  constructor
  · intro h
    have hmem : ∀ kv : OrderedMap String String, ∀ v,
        (allocatedKey s, v) ∈ withPrefix TOPOLOGY_PREFIX kv ↔ kv.get (allocatedKey s) = some v := by
      intro kv v
      rw [withPrefix, List.mem_filter, OrderedMap.mem_entries]
      exact and_iff_left (PythonText.startsWith_append _ _)
    refine Option.ext fun v => ?_
    rw [← hmem, ← hmem, h]
  · intro h
    have hsame : kvAfter s created rolledBack value = s.kv := by
      ext1 key
      by_cases hkey : allocatedKey s = key
      · rw [← hkey, h]
      · exact get_kvAfter_of_ne s created rolledBack value hkey
    rw [hsame]

theorem membersAfter_eq_iff {c : JoinCall} {s : Etcd} {added : Bool} {ms : List Member}
    (h : MembersAfter c s added ms) :
    ms = s.members ↔ (added = true → hasURL s.members c.peerUrl = true) := by
  unfold MembersAfter at h
  split_ifs at h with hadded
  · obtain ⟨id, hid⟩ := h
    subst hid
    refine iff_of_false ?_ ?_
    · intro he
      have hlen := congrArg List.length he
      simp at hlen
    · intro himp
      rw [himp hadded.1] at hadded
      exact absurd hadded.2 Bool.true_eq_false.mp
  · refine iff_of_true h ?_
    intro ha
    by_contra hurl
    exact hadded ⟨ha, by simpa using hurl⟩

/-- Wherever a call stands, the topology prefix and the membership are as they were
exactly if no member add was applied, and the create was, where the key was free,
if and only if the delete was. -/
theorem unchanged_iff_sent {c : JoinCall} {s : Etcd} {w : Solo} {past : List (Solo × Event)}
    (h : Tracks c s w past) :
    Unchanged s w.etcd ↔ (sent isAdd past = true → hasURL s.members c.peerUrl = true) ∧
      if s.kv.get (allocatedKey s) = none then
        sent isCreate past = true → sent isRollback past = true
      else sent isRollback past = false := by
  obtain ⟨value, hkv, hms, -⟩ := h
  unfold Unchanged
  rw [hkv, withPrefix_kvAfter, membersAfter_eq_iff hms, get_kvAfter, and_comm]
  refine and_congr_right fun _ => ?_
  generalize sent isCreate past = created
  generalize sent isRollback past = rolledBack
  cases hkey : s.kv.get (allocatedKey s) with
  | none => cases created <;> cases rolledBack <;> simp
  | some old => cases created <;> cases rolledBack <;> simp

/-! ## Where a call raises -/

/-- Where a call raises: before its create, at its create, at the file of the
joiner, or after the rollback of its member add. -/
inductive RaisedAt (c : JoinCall) (past : List (Solo × Event)) : Prop
  | early : sent isCreate past = false → sent isAdd past = false → sent isRollback past = false →
      RaisedAt c past
  | create : .putIfAbsent ∈ failures c past → sent isAdd past = false →
      sent isRollback past = false → RaisedAt c past
  | build : .joinerEnv ∈ failures c past → sent isCreate past = true → sent isAdd past = false →
      sent isRollback past = false → RaisedAt c past
  | add : .memberAdd ∈ failures c past → sent isCreate past = true →
      (sent isRollback past = true ∨ .delete ∈ failures c past) → RaisedAt c past

/-- What has failed and what has been sent when a call is at a point. -/
def Outcome (c : JoinCall) (past : List (Solo × Event)) : JoinPc → Prop
  | .building _ _ | .adding _ _ => sent isCreate past = true
  | .rollingBack _ _ => sent isCreate past = true ∧ .memberAdd ∈ failures c past
  | .raised _ => RaisedAt c past
  | _ => True

theorem mem_failures_append {c : JoinCall} {past : List (Solo × Event)} {x : Solo × Event}
    {k : FallibleStep} : k ∈ failures c (past ++ [x]) ↔ k ∈ failures c past ∨ failedStep c x = some k := by
  simp [failures, List.filterMap_append, List.mem_append]

theorem failedStep_attempt {c : JoinCall} {w : Solo} {newId : ℕ} {a : Attempt} {r : Request}
    (hr : c.request w.thread.pc = some r)
    (h : a.givesUp w.thread.tries = true ∨
      a = .answered ∧ ∃ text, (serve newId w.etcd r).2 = .error text) :
    failedStep c (w, .attempt newId a) = requestStep w.thread.pc := by
  dsimp only [failedStep]
  rw [if_pos]
  rcases h with hup | ⟨rfl, text, htext⟩
  · rw [hup, Bool.true_or]
  · simp [rejected, hr, htext, Except.isOk, Except.toBool]

/-- A member add that leads to the rollback has failed. -/
theorem failedStep_add {c : JoinCall} {newId : ℕ} {s u : Etcd} {t v : Thread JoinPc} {a : Attempt}
    {name name' env : String} {e : Exc} (h : c.client.attempt newId s t a = some (u, v))
    (ht : t.pc = .adding name env) (hv : v.pc = .rollingBack name' e) :
    failedStep c (⟨s, t⟩, .attempt newId a) = some .memberAdd := by
  obtain ⟨r, hr, -, hnext⟩ := Client.attempt_cases c.client h
  rcases hnext with hsame | ⟨x, -, hwhy⟩ | ⟨y, -, -, hy⟩
  · rw [hsame, ht] at hv
    cases hv
  · have hfailed : failedStep c (⟨s, t⟩, .attempt newId a) = requestStep t.pc :=
      failedStep_attempt hr hwhy
    rw [hfailed, ht]
    rfl
  · rw [ht] at hy
    rw [hy] at hv
    cases y <;> cases hv

theorem sent_step_false {at' : JoinPc → Bool} {past : List (Solo × Event)} {x : Solo × Event}
    (h : sent at' past = false) (hpc : at' x.1.thread.pc = false) : sent at' (past ++ [x]) = false := by
  rw [sent_append, h, Bool.false_or]
  obtain ⟨w, e⟩ := x
  cases e with
  | input i => exact sent_input at' w i
  | attempt newId a =>
      rw [sent_attempt]
      dsimp only at hpc
      rw [hpc, Bool.false_and]

theorem sent_step_true {at' : JoinPc → Bool} {past : List (Solo × Event)} {x : Solo × Event}
    (h : sent at' past = true) : sent at' (past ++ [x]) = true := by
  rw [sent_append, h, Bool.true_or]

/-- A call that raises at a point before its create has sent nothing. -/
theorem raisedAt_early {c : JoinCall} {s : Etcd} {w : Solo} {past : List (Solo × Event)} {e : Event}
    (h : Tracks c s w past) (hearly : ∀ value created added rolledBack,
      Phase s value created added rolledBack w.thread.pc →
        created = false ∧ added = false ∧ rolledBack = false)
    (hcreate : isCreate w.thread.pc = false) (hadd : isAdd w.thread.pc = false)
    (hrollback : isRollback w.thread.pc = false) : RaisedAt c (past ++ [(w, e)]) := by
  obtain ⟨value, -, -, hphase⟩ := h
  obtain ⟨hc, ha, hr⟩ := hearly _ _ _ _ hphase
  exact .early (sent_step_false hc hcreate) (sent_step_false ha hadd) (sent_step_false hr hrollback)

theorem outcome_step {c : JoinCall} {s : Etcd} {w v : Solo} {past : List (Solo × Event)} {e : Event}
    (htracks : Tracks c s w past) (h : Outcome c past w.thread.pc) (hstep : soloStep c w e = some v) :
    Outcome c (past ++ [(w, e)]) v.thread.pc := by
  cases e with
  | input i =>
      obtain ⟨qc, hqc, rfl⟩ := Option.map_eq_some_iff.mp hstep
      obtain ⟨u, pc, k⟩ := w
      cases JoinCall.proceeds_of_proceed hqc with
      | lock now => trivial
      | poll hnow => trivial
      | timeout hnow => exact raisedAt_early htracks (fun _ _ _ _ hp => hp) rfl rfl rfl
      | rejoined henv => trivial
      | rejoinFailed => exact raisedAt_early htracks (fun _ _ _ _ hp => hp) rfl rfl rfl
      | stamp => trivial
      | built henv => exact sent_step_true h
      | buildFailed he =>
          obtain ⟨value, -, -, -, hadd, hroll⟩ := htracks
          refine .build (mem_failures_append.mpr (.inr ?_)) (sent_step_true h)
            (sent_step_false hadd rfl) (sent_step_false hroll rfl)
          simp [failedStep, he, Except.isOk, Except.toBool]
  | attempt newId a =>
      obtain ⟨⟨u', t⟩, ht, rfl⟩ := Option.map_eq_some_iff.mp hstep
      obtain ⟨u, pc, k⟩ := w
      obtain ⟨qc, k'⟩ := t
      cases JoinCall.attempts_of_attempt ht with
      | again hr =>
          cases pc with
          | building name parsed => cases hr
          | raised e => cases hr
          | adding name env => exact sent_step_true h
          | rollingBack name cause =>
              exact ⟨sent_step_true h.1, mem_failures_append.mpr (.inl h.2)⟩
          | _ => trivial
      | pollFailed => trivial
      | polled hall => trivial
      | unhealthy hall => trivial
      | readFailed => exact raisedAt_early htracks (fun _ _ _ _ hp => hp) rfl rfl rfl
      | read =>
          change Outcome c _ (c.chosen (parseTopology (withPrefix TOPOLOGY_PREFIX u.kv)))
          rcases c.chosen_cases (parseTopology (withPrefix TOPOLOGY_PREFIX u.kv)) with
            ⟨e, he⟩ | ⟨name, -, he⟩ | ⟨-, he⟩
          · rw [he]
            exact raisedAt_early htracks (fun _ _ _ _ hp => hp) rfl rfl rfl
          · rw [he]
            trivial
          · rw [he]
            trivial
      | createFailed hup =>
          obtain ⟨value, -, -, -, -, hadd, hroll⟩ := htracks
          refine .create (mem_failures_append.mpr (.inr ?_)) (sent_step_false hadd rfl)
            (sent_step_false hroll rfl)
          exact failedStep_attempt rfl (.inl hup)
      | created =>
          change sent isCreate _ = true
          rw [sent_append, sent_attempt]
          exact Bool.or_true _
      | addFailed =>
          exact ⟨sent_step_true h, mem_failures_append.mpr (.inr (failedStep_add ht rfl rfl))⟩
      | added hurl => trivial
      | rolledBack hend =>
          refine .add (mem_failures_append.mpr (.inl h.2)) (sent_step_true h.1) ?_
          rcases hend with rfl | hup
          · left
            rw [sent_append, sent_attempt]
            exact Bool.or_true _
          · exact .inr (mem_failures_append.mpr (.inr (failedStep_attempt rfl (.inl hup))))

/-- A step after the create fails only once the create was sent. -/
def Late (c : JoinCall) (past : List (Solo × Event)) : Prop :=
  ∀ k ∈ failures c past, k = .joinerEnv ∨ k = .memberAdd → sent isCreate past = true

theorem late_step {c : JoinCall} {w : Solo} {past : List (Solo × Event)} {e : Event}
    (hlate : Late c past) (h : Outcome c past w.thread.pc) : Late c (past ++ [(w, e)]) := by
  intro k hk hafter
  rcases mem_failures_append.mp hk with hold | hnew
  · exact sent_step_true (hlate k hold hafter)
  · obtain ⟨u, pc, tries⟩ := w
    refine sent_step_true ?_
    unfold failedStep at hnew
    cases e with
    | attempt newId a =>
        dsimp only at hnew
        split_ifs at hnew
        cases pc with
        | adding name env => exact h
        | polling | reading | creating | rollingBack =>
            cases hnew
            rcases hafter with hafter | hafter <;> cases hafter
        | _ => cases hnew
    | input i =>
        cases i with
        | clusterEnv file issuedAt =>
            cases pc with
            | building name parsed => exact h
            | rejoining name parsed =>
                dsimp only at hnew
                split_ifs at hnew
                cases hnew
                rcases hafter with hafter | hafter <;> cases hafter
            | _ => cases hnew
        | _ => cases hnew

/-- The store, the failures and the requests of a call. -/
structure Told (c : JoinCall) (s : Etcd) (w : Solo) (past : List (Solo × Event)) : Prop where
  tracks : Tracks c s w past
  outcome : Outcome c past w.thread.pc
  late : Late c past

theorem told_called (c : JoinCall) (s : Etcd) : Told c s (called c s) [] := by
  refine ⟨tracks_called c s, ?_, nofun⟩
  unfold called JoinCall.start
  split_ifs
  · trivial
  · exact .early rfl rfl rfl

theorem told_step {c : JoinCall} {s : Etcd} {w v : Solo} {past : List (Solo × Event)} {e : Event}
    (h : Told c s w past) (hstep : soloStep c w e = some v) : Told c s v (past ++ [(w, e)]) :=
  ⟨tracks_step h.tracks hstep, outcome_step h.tracks h.outcome hstep, late_step h.late h.outcome⟩

/-- What the point where a call raises says of the store. -/
theorem harmless_of_raisedAt {c : JoinCall} {s : Etcd} {past : List (Solo × Event)}
    (hat : RaisedAt c past) (hlate : Late c past)
    (hone : ∀ i j, i ∈ failures c past → i ≠ j → j ∉ failures c past) :
    ((sent isAdd past = true → hasURL s.members c.peerUrl = true) ∧
      if s.kv.get (allocatedKey s) = none then
        sent isCreate past = true → sent isRollback past = true
      else sent isRollback past = false) ↔ Harmless c s past := by
  unfold Harmless
  cases hat with
  | early hcreate hadd hroll =>
      have henv : .joinerEnv ∉ failures c past := fun hf => by
        rw [hlate _ hf (.inl rfl)] at hcreate
        cases hcreate
      have hmember : .memberAdd ∉ failures c past := fun hf => by
        rw [hlate _ hf (.inr rfl)] at hcreate
        cases hcreate
      simp [hcreate, hadd, hroll, henv, hmember]
  | create hfailed hadd hroll =>
      have henv := hone _ .joinerEnv hfailed nofun
      have hmember := hone _ .memberAdd hfailed nofun
      simp [hfailed, hadd, hroll, henv, hmember]
  | build hfailed hcreate hadd hroll =>
      have hput := hone _ .putIfAbsent hfailed nofun
      have hmember := hone _ .memberAdd hfailed nofun
      simp [hfailed, hcreate, hadd, hroll, hput, hmember]
  | add hfailed hcreate hend =>
      have hput := hone _ .putIfAbsent hfailed nofun
      have henv := hone _ .joinerEnv hfailed nofun
      -- the rollback does not fail as well
      have hroll : sent isRollback past = true := hend.resolve_right (hone _ .delete hfailed nofun)
      simp [hfailed, hcreate, hroll, hput, henv, and_comm]

/-- When one step of a call fails and the call raises, the topology prefix and the
membership are as they were if and only if the failure is harmless. -/
theorem unchanged_iff_harmless {c : JoinCall} {s : Etcd} {events : List Event} {t : Solo} {e : Exc}
    (hrun : GuardedRuns.run (soloStep c) (called c s) events = some t) (hraised : t.thread.pc = .raised e)
    (hsingle : ∃ k, ∀ j ∈ failures c (steps c s events), j = k) :
    Unchanged s t.etcd ↔ Harmless c s (steps c s events) := by
  have htold : Told c s t (steps c s events) :=
    GuardedRuns.run_history (fun _ _ _ _ h hs => told_step h hs) (told_called c s) hrun
  have hat := htold.outcome
  rw [hraised] at hat
  obtain ⟨k, hk⟩ := hsingle
  exact (unchanged_iff_sent htold.tracks).trans
    (harmless_of_raisedAt hat htold.late fun i j hi hne hj => hne ((hk i hi).trans (hk j hj).symm))

def isRaised : JoinPc → Bool
  | .raised _ => true
  | _ => false

/-- The call ends by raising, with a test of the store it leaves. -/
def raisesWith (c : JoinCall) (s : Etcd) (events : List Event) (test : Etcd → Bool) : Bool :=
  (GuardedRuns.run (soloStep c) (called c s) events).any fun t =>
    isRaised t.thread.pc && test t.etcd

theorem raisesWith_spec {c : JoinCall} {s : Etcd} {events : List Event} {test : Etcd → Bool}
    (h : raisesWith c s events test = true) :
    ∃ t e, GuardedRuns.run (soloStep c) (called c s) events = some t ∧
      t.thread.pc = .raised e ∧ test t.etcd = true := by
  obtain ⟨t, ht, h⟩ := (Option.any_eq_true _ _).mp h
  obtain ⟨hpc, htest⟩ := Bool.and_eq_true_iff.mp h
  cases hraised : t.thread.pc with
  | raised e => exact ⟨t, e, ht, hraised, htest⟩
  | _ =>
      rw [hraised] at hpc
      cases hpc

def newJoin : JoinCall := ⟨bootConfig, "10.0.0.2", none⟩

/-- A new join up to the reading of `cluster.env`, every answer arriving. -/
def untilBuilding : List Event :=
  [.input (.acquired 0), .input (.monotonic 0), .attempt 2 .answered, .attempt 2 .answered,
    .input (.time ⟨1, 0⟩), .attempt 2 .answered]

/-- etcd refuses the member, and the rollback reaches it. -/
def refusedAdd : List Event :=
  untilBuilding ++ [Event.input (.clusterEnv (some "") ""),
    .attempt 2 (.refused "etcdserver: unhealthy cluster"), .attempt 2 .answered]

theorem unchanged_iff_harmless_refusedAdd :
    ∃ t e, GuardedRuns.run (soloStep newJoin) (called newJoin oneMember) refusedAdd = some t ∧
      t.thread.pc = .raised e ∧ Unchanged oneMember t.etcd := by
  have hraises : raisesWith newJoin oneMember refusedAdd (fun _ => true) = true := by
    decide +kernel
  obtain ⟨t, e, ht, hpc, -⟩ := raisesWith_spec hraises
  exact ⟨t, e, ht, hpc, (unchanged_iff_harmless ht hpc ⟨.memberAdd, by decide +kernel⟩).mpr
    (by decide +kernel)⟩

/-- A missing `cluster.env` makes the call raise after its create. -/
theorem entry_left_without_clusterEnv :
    ∃ t e, GuardedRuns.run (soloStep newJoin) (called newJoin oneMember)
        (untilBuilding ++ [Event.input (.clusterEnv none "")]) = some t ∧
      t.thread.pc = .raised e ∧ ¬ Unchanged oneMember t.etcd := by
  have hraises : raisesWith newJoin oneMember (untilBuilding ++ [Event.input (.clusterEnv none "")])
      (fun s => ¬ Unchanged oneMember s) = true := by
    decide +kernel
  obtain ⟨t, e, ht, hpc, hchanged⟩ := raisesWith_spec hraises
  exact ⟨t, e, ht, hpc, of_decide_eq_true hchanged⟩

/-! ## A repeated join before the answer arrived -/

/-- A call has completed for the joiner, which waits for the answer: its entry
is there, its etcd has not started, and every other member has. -/
structure AwaitsAnswer (c : JoinCall) (s : Etcd) (name : String) : Prop where
  valid : isValidIpv4 c.joinerIp = true
  entry : peerIp s.kv name = some c.joinerIp
  member : ∃ m ∈ s.members, m.peerURLs = [c.peerUrl] ∧ m.started = false
  others : ∀ m ∈ s.members, m.peerURLs ≠ [c.peerUrl] → m.started = true

/-- The points of a call that waits for the cluster. -/
def Waits : JoinPc → Prop
  | .queued | .waiting _ | .polling _ => True
  | .raised e => e = JoinCall.unhealthy
  | _ => False

theorem waits_step {c : JoinCall} {s : Etcd} {w v : Solo} {e : Event}
    (hmember : s.members.all Member.started = false) (h : w.etcd = s ∧ Waits w.thread.pc)
    (hstep : soloStep c w e = some v) : v.etcd = s ∧ Waits v.thread.pc := by
  obtain ⟨u, pc, k⟩ := w
  obtain ⟨hu, hpc⟩ := h
  subst hu
  cases e with
  | input i =>
      obtain ⟨qc, hqc, hv⟩ := Option.map_eq_some_iff.mp hstep
      subst hv
      refine ⟨rfl, ?_⟩
      cases JoinCall.proceeds_of_proceed hqc with
      | lock now => trivial
      | poll hnow => trivial
      | timeout hnow => rfl
      | rejoined henv => exact absurd hpc id
      | rejoinFailed => exact absurd hpc id
      | stamp => exact absurd hpc id
      | built henv => exact absurd hpc id
      | buildFailed he => exact absurd hpc id
  | attempt newId a =>
      obtain ⟨⟨u', t⟩, ht, hv⟩ := Option.map_eq_some_iff.mp hstep
      subst hv
      obtain ⟨qc, k'⟩ := t
      cases JoinCall.attempts_of_attempt ht with
      | again hr =>
          cases pc with
          | polling deadline =>
              cases hr
              refine ⟨?_, hpc⟩
              change (if a.reaches = true then u else u) = u
              rw [ite_self]
          | queued | waiting | returned | raised => cases hr
          | _ => exact absurd hpc id
      | pollFailed => exact ⟨rfl, trivial⟩
      | polled hall =>
          rw [hmember] at hall
          cases hall
      | unhealthy hall => exact ⟨rfl, trivial⟩
      | readFailed => exact absurd hpc id
      | read => exact absurd hpc id
      | createFailed hup => exact absurd hpc id
      | created => exact absurd hpc id
      | addFailed => exact absurd hpc id
      | added hurl => exact absurd hpc id
      | rolledBack hend => exact absurd hpc id

/-- A repeated call never returns while the joiner waits for the first answer. It
changes nothing, and it can end only by its timeout. -/
theorem repeated_join_only_times_out {c : JoinCall} {s : Etcd} {name : String}
    {events : List Event} {t : Solo} (h : AwaitsAnswer c s name)
    (hrun : GuardedRuns.run (soloStep c) (called c s) events = some t) :
    (∀ r, t.thread.pc ≠ .returned r) ∧ t.etcd = s ∧
      ∀ e, t.thread.pc = .raised e → e = JoinCall.unhealthy := by
  have hmember : s.members.all Member.started = false := by
    obtain ⟨m, hm, -, hstarted⟩ := h.member
    exact List.all_eq_false.mpr ⟨m, hm, by rw [hstarted]; exact Bool.false_ne_true⟩
  have hstart : (called c s).etcd = s ∧ Waits (called c s).thread.pc := by
    refine ⟨rfl, ?_⟩
    simp only [called, JoinCall.start, h.valid, if_true]
    trivial
  have hinv := GuardedRuns.run_invariant
    (fun _ _ _ hw hs => waits_step hmember hw hs) hstart hrun
  refine ⟨?_, hinv.1, ?_⟩
  · intro r hr
    have hw := hinv.2
    rw [hr] at hw
    exact hw
  · intro e he
    have hw := hinv.2
    rw [he] at hw
    exact hw

/-- The store after a first join of 10.0.0.2 whose answer was lost. -/
def unansweredJoin : Etcd :=
  ⟨oneMember.kv.put (TOPOLOGY_PREFIX ++ "node-2") (newJoin.infoValue "node-2" ⟨1, 0⟩),
    oneMember.members ++ [⟨2, "", [newJoin.peerUrl]⟩]⟩

theorem awaitsAnswer_unansweredJoin : AwaitsAnswer newJoin unansweredJoin "node-2" where
  valid := by decide +kernel
  entry := by decide +kernel
  member := by decide +kernel
  others := by decide +kernel

/-- A repeated call that has polled once. -/
def polledOnce : List Event :=
  [.input (.acquired 0), .input (.monotonic 0), .attempt 0 .answered]

theorem repeated_join_only_times_out_polledOnce :
    ∃ t, GuardedRuns.run (soloStep newJoin) (called newJoin unansweredJoin) polledOnce = some t ∧
      (∀ r, t.thread.pc ≠ .returned r) ∧ t.etcd = unansweredJoin ∧
      ∀ e, t.thread.pc = .raised e → e = JoinCall.unhealthy := by
  have hrun : GuardedRuns.run (soloStep newJoin) (called newJoin unansweredJoin) polledOnce =
      some ⟨unansweredJoin, ⟨.waiting 180000, 0⟩⟩ := by
    decide +kernel
  exact ⟨_, hrun, repeated_join_only_times_out awaitsAnswer_unansweredJoin hrun⟩

/-- Three minutes later the repeated call raises. -/
theorem repeated_join_raises :
    AwaitsAnswer newJoin unansweredJoin "node-2" ∧
      GuardedRuns.run (soloStep newJoin) (called newJoin unansweredJoin)
        (polledOnce ++ [Event.input (.monotonic 180000)]) =
        some ⟨unansweredJoin, ⟨.raised JoinCall.unhealthy, 0⟩⟩ :=
  ⟨awaitsAnswer_unansweredJoin, by decide +kernel⟩

end MilvusOnprem.LoneJoin
