import MilvusOnprem.EtcdClient
import MilvusOnprem.GuardedRuns

/-!
# One call of `put_if_absent`

The key as one call sees it: its value, and whether a request of this call
created it. Between the attempts of the call other parties write and delete the
key, and requests whose attempts were given up may still arrive. A run ends when
the call returns or raises.
-/
namespace MilvusOnprem.PutIfAbsent

open EtcdClient GuardedRuns

/-- `leaseLive` is true for a put without a lease. -/
structure KeyState where
  entry : Option (String × Bool)
  leaseLive : Bool
deriving DecidableEq

/-- The transaction of the call as etcd executes it. -/
def serve (s : KeyState) (value : String) : KeyState × Except String Bool :=
  match s.entry with
  | some _ => (s, .ok false)
  | none =>
      if s.leaseLive then (⟨some (value, true), s.leaseLive⟩, .ok true)
      else (s, .error "etcdserver: requested lease not found")

/-- The key has the value that a request of this call created. -/
def KeyState.own (s : KeyState) : Bool := s.entry.any Prod.snd

structure Call where
  value : String
  key : KeyState
  strays : List String
  tries : ℕ
  result : Option (Except Exc Bool)

inductive Act where
  | attempt (a : Attempt)
  | land (k : ℕ)
  | others (entry : Option String)
  | lease (live : Bool)
deriving DecidableEq, Repr

def step (c : Call) (act : Act) : Option Call :=
  if c.result.isSome then none
  else
    match act with
    | .attempt a =>
        let x := attemptLate serve c.tries c.key c.strays c.value a
        some { c with key := x.1.1, strays := x.1.2, tries := c.tries + 1, result := x.2 }
    | .land k =>
        (c.strays[k]?).map fun value =>
          { c with key := (serve c.key value).1, strays := c.strays.eraseIdx k }
    | .others entry => some { c with key := { c.key with entry := entry.map fun v => (v, false) } }
    | .lease live => some { c with key := { c.key with leaseLive := live } }

/-- A call that has not sent anything yet. -/
def start (value : String) (entry : Option String) (leaseLive : Bool) : Call :=
  ⟨value, ⟨entry.map fun v => (v, false), leaseLive⟩, [], 0, none⟩

/-- The call returned true exactly when the value under the key is its own. -/
def Honest (c : Call) : Prop := ∀ b, c.result = some (.ok b) → (b = true ↔ c.key.own = true)

/-- An answered attempt does not find the key created by an earlier attempt of
the call. -/
def findsNoOwn (c : Call) : Act → Bool
  | .attempt .answered => !c.key.own
  | _ => true

/-- An attempt leaves the answer right exactly when it does not find a key of its
own call. -/
theorem honest_attempt {c v : Call} {a : Attempt} (hs : step c (.attempt a) = some v) :
    Honest v ↔ findsNoOwn c (.attempt a) = true := by
  unfold step at hs
  split_ifs at hs with hresult
  dsimp only at hs
  cases hs
  have hok : ∀ b, (attemptLate serve c.tries c.key c.strays c.value a).2 = some (.ok b) ↔
      a = .answered ∧ (serve c.key c.value).2 = .ok b := fun b => attemptLate_ok
  simp only [Honest, hok]
  by_cases ha : a = .answered
  · subst ha
    have hstate : (attemptLate serve c.tries c.key c.strays c.value .answered).1.1 =
        (serve c.key c.value).1 := rfl
    simp only [hstate, true_and, findsNoOwn, Bool.not_eq_true']
    cases hentry : c.key.entry with
    | some e => simp [serve, hentry, KeyState.own]
    | none =>
        cases hlive : c.key.leaseLive with
        | true => simp [serve, hentry, hlive, KeyState.own]
        | false => simp [serve, hentry, hlive, KeyState.own]
  · refine iff_of_true (fun b hb => absurd hb.1 ha) ?_
    unfold findsNoOwn
    split
    · next h => exact absurd (Act.attempt.inj h) ha
    · rfl

theorem honest_step {c v : Call} {act : Act} (hs : step c act = some v) :
    ¬Honest v ↔ ¬findsNoOwn c act = true := by
  cases act with
  | attempt a => exact not_congr (honest_attempt hs)
  | land k =>
      refine iff_of_false (not_not.mpr fun b hb => ?_) (by simp [findsNoOwn])
      unfold step at hs
      split_ifs at hs with hresult
      obtain ⟨value, -, rfl⟩ := Option.map_eq_some_iff.mp hs
      rw [show c.result = some (.ok b) from hb] at hresult
      exact absurd rfl hresult
  | others entry =>
      refine iff_of_false (not_not.mpr fun b hb => ?_) (by simp [findsNoOwn])
      unfold step at hs
      split_ifs at hs with hresult
      cases hs
      rw [show c.result = some (.ok b) from hb] at hresult
      exact absurd rfl hresult
  | lease live =>
      refine iff_of_false (not_not.mpr fun b hb => ?_) (by simp [findsNoOwn])
      unfold step at hs
      split_ifs at hs with hresult
      cases hs
      rw [show c.result = some (.ok b) from hb] at hresult
      exact absurd rfl hresult

/-- The answer of a call is right in every run exactly when no answered attempt
finds a key that an earlier attempt of the call has created. -/
theorem honest_run_iff {value : String} {entry : Option String} {leaseLive : Bool} {as : List Act}
    {u : Call} (hr : run step (start value entry leaseLive) as = some u) :
    Keeps step (fun c act => findsNoOwn c act = true) (start value entry leaseLive) as ↔
      ∀ bs c, bs <+: as → run step (start value entry leaseLive) bs = some c → Honest c := by
  have hnever : Keeps step (fun c act => findsNoOwn c act = true) (start value entry leaseLive) as ↔
      ∀ bs c, bs <+: as → run step (start value entry leaseLive) bs = some c → ¬¬Honest c :=
    @keeps_iff_never _ _ _ _ (fun _ => True) (fun c => ¬Honest c) (fun _ _ _ _ _ => trivial)
      (fun c act v _ _ hstep => honest_step hstep) _ _ _ trivial
      (not_not.mpr fun b hb => by cases hb) hr
  rw [hnever]
  simp only [not_not]

end MilvusOnprem.PutIfAbsent
