import MilvusOnprem.TopologyWatcher

/-!
# Folding the events of the prefix

`_apply_event` maintains the mirror one event at a time, `authoritative_peers`
decodes the whole prefix. A list of writes is committed to the store, and the
events etcd emits for it are applied to the mirror that was seeded before the
first of them. No event is missing.

A name of the mirror is decided by its last readable write, the decoded entry
of the store by its last write. Where `json.loads` raises more than a
`JSONDecodeError`, which nobody catches, depends on the limits of the interpreter:
its recursion and the digits of an integer. They are a parameter.
-/
namespace MilvusOnprem.MirrorFold

open PythonText EtcdClient MilvusOnprem.Topology TopologyWatcher

/-- A write under the prefix. -/
inductive Write where
  | put (name value : String)
  | delete (name : String)
deriving DecidableEq, Repr

def Write.name : Write → String
  | .put name _ | .delete name => name

/-- The store after a write and the events etcd emits: none for the deletion of
an absent key. -/
def commit (kv : OrderedMap String String) : Write → OrderedMap String String × List Event
  | .put name value =>
      (kv.put (TOPOLOGY_PREFIX ++ name) value, [.put (TOPOLOGY_PREFIX ++ name) (eventValue value)])
  | .delete name =>
      if kv.get (TOPOLOGY_PREFIX ++ name) = none then (kv, [])
      else (kv.erase (TOPOLOGY_PREFIX ++ name), [.delete (TOPOLOGY_PREFIX ++ name)])

def commitAll (kv : OrderedMap String String) (ws : List Write) :
    OrderedMap String String × List Event :=
  ws.foldl (fun x w => ((commit x.1 w).1, x.2 ++ (commit x.1 w).2)) (kv, [])

/-- What `json.loads` raises at the limits of the interpreter. -/
structure Limits where
  raises : String → Option Exc
  empty : raises "" = none

namespace Limits

variable (l : Limits)

/-- What the decoding of a range scan raises. -/
def scanRaises (kvs : List (String × String)) : Option Exc := kvs.findSome? fun e => l.raises e.2

/-- What the decoding of an event raises. -/
def eventRaises : Event → Option Exc
  | .put key value => if startsWith key TOPOLOGY_PREFIX then value.bind l.raises else none
  | .delete _ => none

/-- A range scan is decoded, unless a value of it goes over the limits. -/
def decode (f : List (String × String) → Mirror) (kvs : List (String × String)) : Except Exc Mirror :=
  match l.scanRaises kvs with
  | some e => .error e
  | none => .ok (f kvs)

/-- `_apply_event` on the events in turn, up to the first that raises. -/
def applyEvents (peers : Mirror) : List Event → Except Exc Mirror
  | [] => .ok peers
  | ev :: evs =>
      match l.eventRaises ev with
      | some e => .error e
      | none =>
          match (applyEvent peers ev).2 with
          | .ok _ => applyEvents (applyEvent peers ev).1 evs
          | .error e => .error e

/-- `_seed`, and the events after it. -/
def folded (kvs : List (String × String)) (evs : List Event) : Except Exc Mirror :=
  (l.decode (seed .empty) kvs).bind fun peers => l.applyEvents peers evs

/-- `authoritative_peers` -/
def fresh (kvs : List (String × String)) : Except Exc Mirror := l.decode authoritativePeers kvs

end Limits

/-! ## Events that raise -/

def isObject : Json → Bool
  | .obj _ => true
  | _ => false

/-- What the event carries has fields, if it is JSON at all. -/
def hasFields : Event → Bool
  | .put key value => !startsWith key TOPOLOGY_PREFIX || (eventInfo value).all isObject
  | .delete _ => true

theorem applyEvent_ok {peers : Mirror} {ev : Event} :
    (∃ kind, (applyEvent peers ev).2 = .ok kind) ↔ hasFields ev = true := by
  cases ev with
  | delete key =>
      refine iff_of_true ?_ rfl
      by_cases hkey : startsWith key TOPOLOGY_PREFIX = true
      · exact ⟨_, by rw [applyEvent, if_pos hkey]⟩
      · exact ⟨_, by rw [applyEvent, if_neg hkey]⟩
  | put key value =>
      by_cases hkey : startsWith key TOPOLOGY_PREFIX = true
      · simp only [applyEvent, hasFields, hkey, Bool.not_true, Bool.false_or]
        cases hinfo : eventInfo value with
        | none => simp
        | some info => cases info <;> simp [infoGet, Except.map, isObject]
      · refine iff_of_true ⟨_, by rw [applyEvent, if_neg hkey]⟩ ?_
        simp [hasFields, hkey]

/-- A write whose value is an object, if it is JSON at all. -/
def Write.hasFields : Write → Bool
  | .put _ value => (JsonText.loads value).all isObject
  | .delete _ => true

/-- The empty text is no JSON, but its event counts as an object. -/
theorem eventInfo_eventValue (value : String) :
    eventInfo (eventValue value) = if value = "" then some (.obj []) else JsonText.loads value := by
  unfold eventValue
  split_ifs <;> rfl

/-- The decoded entry a write leaves in the store. -/
def Write.stored : Write → Option Json
  | .put _ value => JsonText.loads value
  | .delete _ => none

def lastWrite (ws : List Write) (name : String) : Option Write :=
  ws.reverse.find? fun w => w.name = name

/-- Whether the event of a write touches the mirror. -/
def Write.readable : Write → Bool
  | .put _ value => (eventInfo (eventValue value)).isSome
  | .delete _ => true

def lastReadable (ws : List Write) (name : String) : Option Write :=
  ws.reverse.find? fun w => w.name = name ∧ w.readable = true

/-- The mirror once the events of a list of writes are applied. -/
def mirror (kv : OrderedMap String String) (ws : List Write) : Mirror :=
  applyAll (contents kv) (commitAll kv ws).2

/-- A text that is not JSON replaces nothing in the mirror: it is not empty, and
the last readable write before it is a deletion, or there is none and the seed
has no entry either. -/
def ReplacesNothing (kv : OrderedMap String String) (ws : List Write) (name : String) : Prop :=
  ∀ value, lastWrite ws name = some (.put name value) → JsonText.loads value = none →
    value ≠ "" ∧
      match lastReadable ws name with
      | none => entryOf kv name = none
      | some w => w = .delete name

theorem ReplacesNothing.deletes {kv : OrderedMap String String} {ws : List Write}
    {name value : String} {w : Write} (h : ReplacesNothing kv ws name)
    (hlast : lastWrite ws name = some (.put name value)) (hnone : JsonText.loads value = none)
    (hread : lastReadable ws name = some w) : w = .delete name := by
  have hmatch := (h value hlast hnone).2
  rw [hread] at hmatch
  exact hmatch

section LastPut

variable {kv : OrderedMap String String} {ws : List Write} {name value : String}

end LastPut

/-- The mirror folded from the events is what a fresh read of the store returns. -/
def Agrees (l : Limits) (kv : OrderedMap String String) (ws : List Write) : Prop :=
  ∃ m, l.folded (withPrefix TOPOLOGY_PREFIX kv) (commitAll kv ws).2 = .ok m ∧
    l.fresh (withPrefix TOPOLOGY_PREFIX (commitAll kv ws).1) = .ok m

/-- Limits that no value goes over. -/
def Limits.wide : Limits := ⟨fun _ => none, rfl⟩

end MilvusOnprem.MirrorFold
