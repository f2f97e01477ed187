import MilvusOnprem.PoolAgreement
import MilvusOnprem.Draining

/-!
# Whose state the worker reads

`_decommission_state` on the status output of a cluster with one pool per host.
The records of the pools are whatever they are, as long as each carries the
command line of its pool.
-/
namespace MilvusOnprem.PoolLookup

open PythonText MinioRender RemoveNode PoolAgreement

/-- An address: digits and dots. -/
structure Address where
  text : String
  dotted : ∀ c ∈ text.toList, c = '.' ∨ c.isDigit = true
  nonempty : text ≠ ""
deriving DecidableEq

/-- A port or a number of drives. -/
structure Number where
  text : String
  digits : ∀ c ∈ text.toList, c.isDigit = true
deriving DecidableEq

theorem Address.notMem (a : Address) {x : Char} (hdot : x ≠ '.') (hdigit : x.isDigit = false) :
    x ∉ a.text.toList := by
  intro hm
  rcases a.dotted x hm with h | h
  · exact hdot h
  · rw [hdigit] at h
    cases h

theorem Number.notMem (n : Number) {x : Char} (hdigit : x.isDigit = false) : x ∉ n.text.toList := by
  intro hm
  have h := n.digits x hm
  rw [hdigit] at h
  cases h

/-- A pool of the command line: its host and its number of drives. -/
structure Pool where
  host : Address
  drives : Number
deriving DecidableEq

/-- A pool and the fields of its record in the status output. -/
abbrev Entry := Pool × List (String × Json)

/-- The record carries the command line of the pool. -/
def Carries (port : Number) (e : Entry) : Prop :=
  Json.field "cmdline" e.2 = some (.str (poolArg port.text e.1.drives.text e.1.host.text))

/-- The status command succeeds and prints the list. -/
structure Prints (r : CommandResult) (entries : List Entry) : Prop where
  success : r.rc = 0
  listed : JsonText.loads r.out = some (.arr (entries.map fun e => .obj e.2))

/-- The host ends with the target's address. -/
def endsWith (target : Address) (p : Pool) : Bool := target.text.toList <:+ p.host.text.toList

theorem inCmdline_poolArg (port : Number) (target : Address) (p : Pool) :
    inCmdline (targetPoolUrlFragment target.text port.text)
      (.str (poolArg port.text p.drives.text p.host.text)) = .ok (endsWith target p) := by
  have hiff : contains (poolArg port.text p.drives.text p.host.text)
      (targetPoolUrlFragment target.text port.text) = true ↔
        target.text.toList <:+ p.host.text.toList := by
    rw [contains_iff, toList_fragment, toList_poolArg]
    refine fragment_infix ?_ ⟨?_, ?_⟩ ?_ ⟨?_, ?_⟩ ?_
    · simpa using target.nonempty
    · exact target.notMem (by decide) (by decide)
    · exact target.notMem (by decide) (by decide)
    · exact p.host.notMem (by decide) (by decide)
    · exact port.notMem (by decide)
    · exact port.notMem (by decide)
    · exact p.drives.notMem (by decide)
  exact congrArg Except.ok (Bool.eq_iff_iff.mpr (hiff.trans decide_eq_true_iff.symm))

/-- The state of the first pool whose host ends with the target's address. -/
theorem poolsState_entries (port : Number) (target : Address) {entries : List Entry}
    (h : ∀ e ∈ entries, Carries port e) :
    poolsState (targetPoolUrlFragment target.text port.text) (entries.map fun e => .obj e.2) =
      match entries.find? fun e => endsWith target e.1 with
      | some e => poolState e.2
      | none => .ok .missing := by
  induction entries with
  | nil => rfl
  | cons e entries ih =>
      obtain ⟨hfirst, hrest⟩ := List.forall_mem_cons.mp h
      have hfield : Json.field "cmdline" e.2 =
          some (.str (poolArg port.text e.1.drives.text e.1.host.text)) := hfirst
      simp only [List.map_cons, poolsState, hfield, Option.getD_some, inCmdline_poolArg, bind,
        Except.bind]
      cases hends : endsWith target e.1 with
      | true =>
          rw [List.find?_cons_of_pos (p := fun e : Entry => endsWith target e.1) hends]
          rfl
      | false =>
          rw [List.find?_cons_of_neg (p := fun e : Entry => endsWith target e.1) (by simp [hends])]
          exact ih hrest

/-- What `_decommission_state` makes of the status output. -/
theorem decommissionState_entries {port : Number} {target : Address} {entries : List Entry}
    {r : CommandResult} (h : ∀ e ∈ entries, Carries port e) (hr : Prints r entries) :
    decommissionState (targetPoolUrlFragment target.text port.text) r =
      match entries.find? fun e => endsWith target e.1 with
      | some e => poolState e.2
      | none => .ok .missing := by
  have hstrip := strip_ne_empty_of_loads hr.listed
  rw [← poolsState_entries port target h]
  simp only [decommissionState, hr.success, hstrip, hr.listed, ne_eq, not_true_eq_false, false_and,
    not_false_eq_true, if_true, if_false]

/-- The result is the state of the target's own pool, and missing when there is
none. -/
def Answers (target : Address) (entries : List Entry) (res : Except Exc PoolState) : Prop :=
  (∀ e ∈ entries, e.1.host = target → res = poolState e.2) ∧
    ((∀ e ∈ entries, e.1.host ≠ target) → res = .ok .missing)

/-- The first pool whose host ends with the target's address is the target's own. -/
def OwnFirst (target : Address) (pools : List Pool) : Prop :=
  ∀ p, pools.find? (endsWith target) = some p → p.host = target

theorem endsWith_own {target : Address} {p : Pool} (h : p.host = target) :
    endsWith target p = true := by
  rw [endsWith, h]
  exact decide_eq_true (List.suffix_refl _)

theorem find_fst (target : Address) (entries : List Entry) :
    (entries.map Prod.fst).find? (endsWith target) =
      (entries.find? fun e => endsWith target e.1).map Prod.fst :=
  List.find?_map ..

/-- The state that is read is the target's when its own pool comes first. -/
theorem answers_of_ownFirst {target : Address} {entries : List Entry}
    (hdistinct : (entries.map fun e => e.1.host).Nodup)
    (hown : OwnFirst target (entries.map Prod.fst)) :
    Answers target entries
      (match entries.find? fun e => endsWith target e.1 with
      | some e => poolState e.2
      | none => .ok .missing) := by
  cases hfind : entries.find? fun e => endsWith target e.1 with
  | none =>
      rw [List.find?_eq_none] at hfind
      exact ⟨fun e he hhost => absurd (endsWith_own hhost) (hfind e he), fun _ => rfl⟩
  | some e =>
      have hmem := List.mem_of_find?_eq_some hfind
      have hhost : e.1.host = target := hown e.1 (by rw [find_fst, hfind]; rfl)
      refine ⟨fun e' he' hhost' => ?_, fun hnone => absurd hhost (hnone e hmem)⟩
      rw [List.inj_on_of_nodup_map hdistinct hmem he' (hhost.trans hhost'.symm)]

/-- The record of a pool whose decommission has ended, well or badly. -/
def endedRecord (port : Number) (how : String) (p : Pool) : List (String × Json) :=
  [("cmdline", .str (poolArg port.text p.drives.text p.host.text)),
    ("decommissionInfo", .obj [(how, .bool true)])]

theorem carries_endedRecord (port : Number) (how : String) (p : Pool) :
    Carries port (p, endedRecord port how p) := rfl

theorem poolState_complete (port : Number) (p : Pool) :
    poolState (endedRecord port "complete" p) = .ok .complete := rfl

theorem poolState_failed (port : Number) (p : Pool) :
    poolState (endedRecord port "failed" p) = .ok .failed := rfl

/-- The answer of `mc` to a status query. -/
def printed (entries : List Entry) : CommandResult :=
  ⟨0, JsonText.dumps (.arr (entries.map fun e => .obj e.2)), ""⟩

theorem prints_printed (entries : List Entry) : Prints (printed entries) entries :=
  ⟨rfl, JsonText.loads_dumps _⟩

/-- A list of pools of different hosts: whatever the records say, the worker reads
the state of the target's own pool exactly when no pool before it, and none at
all without it, has a host that ends with the target's address. -/
theorem decommissionState_answers_iff {port : Number} {target : Address} {pools : List Pool}
    (hdistinct : (pools.map Pool.host).Nodup) :
    (∀ (entries : List Entry) (r : CommandResult), entries.map Prod.fst = pools →
        (∀ e ∈ entries, Carries port e) → Prints r entries →
          Answers target entries
            (decommissionState (targetPoolUrlFragment target.text port.text) r)) ↔
      OwnFirst target pools := by
  constructor
  · intro h p hp
    by_contra hother
    -- the target's pool is complete, every other pool has failed
    let record : Pool → Entry := fun q =>
      (q, endedRecord port (if q.host = target then "complete" else "failed") q)
    let entries := pools.map record
    have hpools : entries.map Prod.fst = pools := by
      rw [List.map_map]
      exact List.map_id' pools
    have hcarries : ∀ e ∈ entries, Carries port e := by
      intro e he
      obtain ⟨q, -, rfl⟩ := List.mem_map.mp he
      exact carries_endedRecord ..
    have hprints := prints_printed entries
    obtain ⟨hown, hmissing⟩ := h entries _ hpools hcarries hprints
    have hfind : entries.find? (fun e => endsWith target e.1) = some (record p) := by
      rw [List.find?_map]
      exact congrArg (Option.map record) hp
    rw [decommissionState_entries hcarries hprints, hfind] at hown hmissing
    have hstate : poolState (record p).2 = .ok .failed := by
      simp only [record, if_neg hother]
      exact poolState_failed port p
    simp only [hstate] at hown hmissing
    by_cases hhas : ∃ q ∈ pools, q.host = target
    · obtain ⟨q, hq, hhost⟩ := hhas
      have hcomplete := hown (record q) (List.mem_map_of_mem hq) hhost
      have hdone : poolState (record q).2 = .ok .complete := by
        simp only [record, if_pos hhost]
        exact poolState_complete port q
      rw [hdone] at hcomplete
      cases hcomplete
    · have habsent : ∀ e ∈ entries, e.1.host ≠ target := by
        intro e he hhost
        obtain ⟨q, hq, rfl⟩ := List.mem_map.mp he
        exact hhas ⟨q, hq, hhost⟩
      cases hmissing habsent
  · rintro hown entries r rfl hcarries hprints
    rw [decommissionState_entries hcarries hprints]
    rw [List.map_map] at hdistinct
    exact answers_of_ownFirst hdistinct hown

def address (text : String)
    (dotted : ∀ c ∈ text.toList, c = '.' ∨ c.isDigit = true := by decide)
    (nonempty : text ≠ "" := by decide) : Address := ⟨text, dotted, nonempty⟩

def port9000 : Number := ⟨"9000", by decide⟩

def fourDrives (host : Address) : Pool := ⟨host, ⟨"4", by decide⟩⟩

/-- The pool of `10.0.0.1` has failed, that of `10.0.0.2` is complete. -/
def twoEntries : List Entry :=
  [(fourDrives (address "10.0.0.1"), endedRecord port9000 "failed" (fourDrives (address "10.0.0.1"))),
    (fourDrives (address "10.0.0.2"), endedRecord port9000 "complete" (fourDrives (address "10.0.0.2")))]

theorem decommissionState_answers_two : Answers (address "10.0.0.2") twoEntries
    (decommissionState (targetPoolUrlFragment "10.0.0.2" "9000") (printed twoEntries)) := by
  have hown : OwnFirst (address "10.0.0.2")
      [fourDrives (address "10.0.0.1"), fourDrives (address "10.0.0.2")] := by
    intro p hp
    have hsecond : [fourDrives (address "10.0.0.1"), fourDrives (address "10.0.0.2")].find?
        (endsWith (address "10.0.0.2")) = some (fourDrives (address "10.0.0.2")) := by
      decide +kernel
    rw [hsecond] at hp
    rw [← Option.some.inj hp]
    rfl
  have hcarries : ∀ e ∈ twoEntries, Carries port9000 e := by
    simp only [twoEntries, List.forall_mem_cons]
    exact ⟨rfl, rfl, by simp⟩
  exact (@decommissionState_answers_iff port9000 (address "10.0.0.2")
    [fourDrives (address "10.0.0.1"), fourDrives (address "10.0.0.2")] (by decide)).mpr hown
      twoEntries (printed twoEntries) rfl hcarries (prints_printed twoEntries)

/-- The pool of `110.0.0.1` is complete, that of `10.0.0.1` has failed. -/
def suffixEntries : List Entry :=
  [(fourDrives (address "110.0.0.1"), endedRecord port9000 "complete" (fourDrives (address "110.0.0.1"))),
    (fourDrives (address "10.0.0.1"), endedRecord port9000 "failed" (fourDrives (address "10.0.0.1")))]

/-- The worker takes the pool of another host for the target's. -/
theorem suffix_host_taken : ∃ r, Prints r suffixEntries ∧
    (suffixEntries.map fun e => e.1.host).Nodup ∧ (∀ e ∈ suffixEntries, Carries port9000 e) ∧
    decommissionState (targetPoolUrlFragment "10.0.0.1" "9000") r = .ok .complete ∧
    ¬Answers (address "10.0.0.1") suffixEntries
      (decommissionState (targetPoolUrlFragment "10.0.0.1" "9000") r) := by
  have hcarries : ∀ e ∈ suffixEntries, Carries port9000 e := by
    simp only [suffixEntries, List.forall_mem_cons]
    exact ⟨rfl, rfl, by simp⟩
  have hprints := prints_printed suffixEntries
  have hstate := @decommissionState_entries port9000 (address "10.0.0.1") _ _ hcarries hprints
  have hfirst : suffixEntries.find? (fun e => endsWith (address "10.0.0.1") e.1) =
      suffixEntries.head? := by
    exact List.find?_cons_of_pos (by decide)
  rw [hfirst] at hstate
  have hcomplete : decommissionState (targetPoolUrlFragment "10.0.0.1" "9000") (printed suffixEntries) =
      .ok .complete := hstate
  refine ⟨_, hprints, by decide, hcarries, hcomplete, ?_⟩
  intro hanswers
  have hown := hanswers.1 _ (List.mem_cons_of_mem _ List.mem_cons_self) rfl
  rw [hcomplete, poolState_failed] at hown
  cases hown

end MilvusOnprem.PoolLookup
