import MilvusOnprem.OrderedMap
import MilvusOnprem.JsonRoundTrip
import MilvusOnprem.PythonText

/-!
# The etcd store and the client's transport

The store is the key space without leases, in key order, and the Raft
membership. Requests carry plain strings; the base64 coding of the gateway is
left out, and so are the endpoint URLs. A request takes effect in one step.

The client's `_post` repeats a request until one attempt is answered. Each
attempt is a step of its own, so other parties may act between two of them, and
its outcome says whether etcd got the request and whether the answer came back.
-/
namespace MilvusOnprem

open PythonText

/-- The exceptions the modelled functions raise or let pass. -/
inductive Exc where
  | joinError (detail : String)
  | valueError (detail : String)
  | permissionError (detail : String)
  | runtimeError (detail : String)
  | typeError
  | attributeError
  | httpStatus (detail : String)
deriving DecidableEq, Repr

/-- `str(e)`; the interpreter's own messages are left out. -/
def Exc.text : Exc → String
  | .joinError d | .valueError d | .permissionError d | .runtimeError d | .httpStatus d => d
  | .typeError | .attributeError => ""

/-- A Raft member. Its name stays empty until its etcd process has started. -/
structure Member where
  id : ℕ
  name : String
  peerURLs : List String
deriving DecidableEq, Repr

/-- `bool(m.get("name"))` -/
def Member.started (m : Member) : Bool := m.name ≠ ""

structure Etcd where
  kv : OrderedMap String String
  members : List Member
deriving DecidableEq

namespace EtcdClient

inductive Request where
  | get (key : String)
  | getPrefix (pre : String)
  | delete (key : String)
  | putIfAbsent (key value : String)
  | memberList
  | memberAdd (peerURLs : List String)
  | memberRemove (id : ℕ)
deriving DecidableEq, Repr

inductive Reply where
  | value (v : Option String)
  | entries (kvs : List (String × String))
  | deleted
  | succeeded (b : Bool)
  | members (ms : List Member)
  | added
  | removed
deriving DecidableEq, Repr

/-- The entries of a range scan. -/
def withPrefix (pre : String) (kv : OrderedMap String String) : List (String × String) :=
  kv.entries.filter fun e => startsWith e.1 pre

def hasURL (ms : List Member) (url : String) : Bool := ms.any fun m => m.peerURLs.contains url

/-- One request as etcd executes it; the error is the text of a 4xx or 5xx
answer. A new member's id is chosen by etcd and unused so far. -/
def serve (newId : ℕ) (s : Etcd) : Request → Etcd × Except String Reply
  | .get key => (s, .ok (.value (s.kv.get key)))
  | .getPrefix pre => (s, .ok (.entries (withPrefix pre s.kv)))
  | .delete key => (⟨s.kv.erase key, s.members⟩, .ok .deleted)
  | .putIfAbsent key value =>
      match s.kv.get key with
      | none => (⟨s.kv.put key value, s.members⟩, .ok (.succeeded true))
      | some _ => (s, .ok (.succeeded false))
  | .memberList => (s, .ok (.members s.members))
  | .memberAdd urls =>
      if urls.any (hasURL s.members) then (s, .error "etcdserver: Peer URLs already exists")
      else (⟨s.kv, s.members ++ [⟨newId, "", urls⟩]⟩, .ok .added)
  | .memberRemove id =>
      if s.members.any (fun m => m.id = id) then
        (⟨s.kv, s.members.filter fun m => m.id ≠ id⟩, .ok .removed)
      else (s, .error "etcdserver: member not found")

/-- What happens to one attempt of `_post`: the connection fails before etcd has
the request; etcd executes it and the answer is lost; a 503, without effect;
another 4xx or 5xx, without effect; an answer. -/
inductive Attempt where
  | dropped (err : String)
  | unanswered (err : String)
  | busy (text : String)
  | refused (err : String)
  | answered
deriving DecidableEq, Repr

/-- Whether etcd executes the request. -/
def Attempt.reaches : Attempt → Bool
  | .unanswered _ | .answered => true
  | .dropped _ | .busy _ | .refused _ => false

def retryDelays : List ℕ := [1, 2, 4, 8, 8, 8]

/-- After a transient failure: `none` to try again, or the final error. -/
def retry {R : Type} (tries : ℕ) (lastErr : String) : Option (Except Exc R) :=
  if tries + 1 < retryDelays.length + 1 then none
  else some (.error (.runtimeError ("etcd: all endpoints failed after retries: " ++ lastErr)))

/-- One attempt of `_post` after `tries` failed ones, for a request that a
server executes as `exec`: the new state, and what the call returns or raises if
it ends. -/
def attemptOn {S R : Type} (exec : S → S × Except String R) (tries : ℕ) (s : S) :
    Attempt → S × Option (Except Exc R)
  | .dropped err => (s, retry tries err)
  | .unanswered err => ((exec s).1, retry tries err)
  | .busy text => (s, retry tries ("etcd 503: " ++ prefixOf 200 text))
  | .refused err => (s, some (.error (.httpStatus err)))
  | .answered => ((exec s).1, some ((exec s).2.mapError .httpStatus))

def attempt (newId tries : ℕ) (s : Etcd) (r : Request) :
    Attempt → Etcd × Option (Except Exc Reply) :=
  attemptOn (fun s => serve newId s r) tries s

/-- Whether this attempt makes the call raise, after `tries` failed ones. -/
def Attempt.givesUp (tries : ℕ) : Attempt → Bool
  | .dropped _ | .unanswered _ | .busy _ => retryDelays.length ≤ tries
  | .refused _ => true
  | .answered => false

/-- A read never changes the store. -/
def Request.isRead : Request → Bool
  | .get _ | .getPrefix _ | .memberList => true
  | .delete _ | .putIfAbsent _ _ | .memberAdd _ | .memberRemove _ => false

theorem serve_read (newId : ℕ) (s : Etcd) {r : Request} (h : r.isRead = true) :
    (serve newId s r).1 = s := by
  cases r <;> first | rfl | cases h

theorem serve_putIfAbsent (newId : ℕ) (s : Etcd) (key value : String) :
    (serve newId s (.putIfAbsent key value)).1 =
      if s.kv.get key = none then ⟨s.kv.put key value, s.members⟩ else s := by
  simp only [serve]
  split
  · next h => rw [if_pos h]
  · next v h => rw [h, if_neg (Option.some_ne_none v)]

section AttemptOn

variable {S R : Type} {exec : S → S × Except String R} {tries : ℕ} {s t : S} {a : Attempt}

/-- An attempt changes the state exactly as the request does, or not at all. -/
theorem attemptOn_state (exec : S → S × Except String R) (tries : ℕ) (s : S) (a : Attempt) :
    (attemptOn exec tries s a).1 = if a.reaches then (exec s).1 else s := by
  cases a <;> rfl

theorem retry_ne_ok (tries : ℕ) (err : String) (y : R) : retry tries err ≠ some (.ok y) := by
  unfold retry
  split_ifs <;> simp

/-- A call returns only what the server answered to its last attempt. -/
theorem attemptOn_ok {y : R} (h : attemptOn exec tries s a = (t, some (.ok y))) :
    a = .answered ∧ exec s = (t, .ok y) := by
  cases a with
  | dropped err => exact absurd (Prod.ext_iff.mp h).2 (retry_ne_ok _ _ _)
  | unanswered err => exact absurd (Prod.ext_iff.mp h).2 (retry_ne_ok _ _ _)
  | busy text => exact absurd (Prod.ext_iff.mp h).2 (retry_ne_ok _ _ _)
  | refused err => simp [attemptOn] at h
  | answered =>
      refine ⟨rfl, ?_⟩
      cases hs : exec s with
      | mk u res =>
          cases res with
          | error e => simp [attemptOn, hs, Except.mapError] at h
          | ok z =>
              simp only [attemptOn, hs, Except.mapError, Prod.mk.injEq, Option.some.injEq,
                Except.ok.injEq] at h
              rw [h.1, h.2]

/-- A call is not tried again after the last delay. -/
theorem of_retry {err : String} {res : Except Exc R} (h : retry tries err = some res) :
    retryDelays.length ≤ tries := by
  unfold retry at h
  split_ifs at h with hlt
  omega

/-- A call raises when it gives up, or with the error the server answered. -/
theorem attemptOn_error {e : Exc} (h : attemptOn exec tries s a = (t, some (.error e))) :
    a.givesUp tries = true ∨ a = .answered ∧ ∃ text, (exec s).2 = .error text := by
  cases a with
  | dropped err => exact .inl (decide_eq_true (of_retry (Prod.ext_iff.mp h).2))
  | unanswered err => exact .inl (decide_eq_true (of_retry (Prod.ext_iff.mp h).2))
  | busy text => exact .inl (decide_eq_true (of_retry (Prod.ext_iff.mp h).2))
  | refused err => exact .inl rfl
  | answered =>
      refine .inr ⟨rfl, ?_⟩
      cases hs : (exec s).2 with
      | error text => exact ⟨text, rfl⟩
      | ok y =>
          have he := (Prod.ext_iff.mp h).2
          simp only [attemptOn, hs, Except.mapError] at he
          cases he

end AttemptOn

/-! ## Requests that arrive late -/

section AttemptLate

variable {S Q R : Type} {exec : S → Q → S × Except String R} {tries : ℕ} {s : S}
  {strays : List Q} {q : Q} {a : Attempt}

/-- One attempt where an unanswered request joins those still under way, which
the server may execute at any later time. -/
def attemptLate (exec : S → Q → S × Except String R) (tries : ℕ) (s : S) (strays : List Q)
    (q : Q) : Attempt → (S × List Q) × Option (Except Exc R)
  | .unanswered err => ((s, q :: strays), retry tries err)
  | a =>
      let x := attemptOn (fun s => exec s q) tries s a
      ((x.1, strays), x.2)

/-- The state after an attempt: only an answered one executes the request. -/
def after (exec : S → Q → S × Except String R) (s : S) (q : Q) (a : Attempt) : S :=
  if a = .answered then (exec s q).1 else s

theorem attemptLate_state : (attemptLate exec tries s strays q a).1.1 = after exec s q a := by
  cases a <;> rfl

theorem mem_attemptLate {x : Q} (h : x ∈ (attemptLate exec tries s strays q a).1.2) :
    x = q ∨ x ∈ strays := by
  cases a with
  | unanswered err => exact List.mem_cons.mp h
  | _ => exact .inr h

/-- A call returns what it was answered, in the attempt that was answered. -/
theorem attemptLate_ok {y : R} : (attemptLate exec tries s strays q a).2 = some (.ok y) ↔
    a = .answered ∧ (exec s q).2 = .ok y := by
  cases a with
  | answered =>
      cases hs : (exec s q).2 with
      | ok z => simp [attemptLate, attemptOn, hs, Except.mapError]
      | error text => simp [attemptLate, attemptOn, hs, Except.mapError]
  | unanswered err => simp [attemptLate, retry_ne_ok]
  | dropped err => simp [attemptLate, attemptOn, retry_ne_ok]
  | busy text => simp [attemptLate, attemptOn, retry_ne_ok]
  | refused err => simp [attemptLate, attemptOn]

/-- A call ends when it is answered or gives up. -/
theorem attemptLate_returns {res : Except Exc R}
    (h : (attemptLate exec tries s strays q a).2 = some res) :
    a = .answered ∨ a.givesUp tries = true := by
  cases a with
  | dropped err => exact .inr (decide_eq_true (of_retry h))
  | unanswered err => exact .inr (decide_eq_true (of_retry h))
  | busy text => exact .inr (decide_eq_true (of_retry h))
  | refused err => exact .inr rfl
  | answered => exact .inl rfl

end AttemptLate

/-- A program that talks to etcd: the call in flight at each of its points, and
the point it continues from with the call's result. -/
structure Client (P : Type) where
  request : P → Option Request
  answered : P → Except Exc Reply → P

/-- A running program: its point and the failed attempts of its call in flight. -/
structure Thread (P : Type) where
  pc : P
  tries : ℕ
deriving DecidableEq

namespace Client

variable {P : Type} (C : Client P)

/-- One attempt of the call in flight. -/
def attempt (newId : ℕ) (s : Etcd) (t : Thread P) (a : Attempt) : Option (Etcd × Thread P) :=
  (C.request t.pc).map fun r =>
    match EtcdClient.attempt newId t.tries s r a with
    | (u, none) => (u, ⟨t.pc, t.tries + 1⟩)
    | (u, some res) => (u, ⟨C.answered t.pc res, 0⟩)

/-- What an attempt does to the store and to the program: the call goes on at
the same point, or it ends with etcd's answer or with an error. -/
theorem attempt_cases {newId : ℕ} {s u : Etcd} {t v : Thread P} {a : Attempt}
    (h : C.attempt newId s t a = some (u, v)) :
    ∃ r, C.request t.pc = some r ∧ u = (if a.reaches then (serve newId s r).1 else s) ∧
      (v.pc = t.pc ∨
        (∃ e, v.pc = C.answered t.pc (.error e) ∧
          (a.givesUp t.tries = true ∨ a = .answered ∧ ∃ text, (serve newId s r).2 = .error text)) ∨
        ∃ y, a = .answered ∧ (serve newId s r).2 = .ok y ∧ v.pc = C.answered t.pc (.ok y)) := by
  obtain ⟨r, hr, h⟩ := Option.map_eq_some_iff.mp h
  have hstore : (EtcdClient.attempt newId t.tries s r a).1 = _ :=
    attemptOn_state (fun s => serve newId s r) t.tries s a
  cases hres : EtcdClient.attempt newId t.tries s r a with
  | mk w res =>
      rw [hres] at h hstore
      cases res with
      | none =>
          cases h
          exact ⟨r, hr, hstore, .inl rfl⟩
      | some res =>
          cases h
          refine ⟨r, hr, hstore, .inr ?_⟩
          cases res with
          | error e => exact .inl ⟨e, rfl, attemptOn_error hres⟩
          | ok y =>
              have hok := attemptOn_ok hres
              exact .inr ⟨y, hok.1, by rw [hok.2], rfl⟩

end Client

end EtcdClient
end MilvusOnprem
