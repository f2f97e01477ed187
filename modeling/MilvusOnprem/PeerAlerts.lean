import MilvusOnprem.AutoMigrate

/-!
# The alerts of a node at an ip

The probes of one watchdog in a run, each with the lines it prints. The watchdog
counts misses by the name of a node, and the mirror may give a name another ip at
any time. The alerts a node at an ip should get are a function of the answers of
its own probes.
-/
namespace MilvusOnprem.PeerAlerts

open EtcdClient PeerWatchdog GuardedRuns AutoMigrate

inductive Edge where
  | down
  | up
deriving DecidableEq, Repr

def Edge.other : Edge → Edge
  | .down => .up
  | .up => .down

/-- What an alert says about a node at an ip. -/
def edgeOf (name : String) (ip : Json) : Alert → Option Edge
  | .peerUp _ n i _ => if n = name ∧ i = ip then some .up else none
  | .peerDown _ n i _ => if n = name ∧ i = ip then some .down else none
  | .autoMigratePulsar .. => none

structure Probe where
  name : String
  ip : Json
  ok : Bool
  printed : List Alert

/-- What the daemon prints at the answer of a probe. -/
def printedBy (x : Daemon) (now : ℤ) (name : String) (ip : Json) (ok : Bool) : List Alert :=
  if ok then (x.watch.answered x.config now name ip).2
  else (x.watch.missed x.config now name ip).2

/-- The probe that ends in a step of the daemon. -/
def probeOf (d : ℕ) (x : World × Act) : Option Probe :=
  match x.2 with
  | .probed e now (some ok) _ =>
      if e = d then
        match (x.1.daemons d).pc with
        | .probing name ip _ => some ⟨name, ip, ok, printedBy (x.1.daemons d) now name ip ok⟩
        | _ => none
      else none
  | _ => none

def probes (d : ℕ) (past : List (World × Act)) : List Probe := past.filterMap (probeOf d)

/-- The answers of the probes of a node, at any ip. -/
def nodeAnswers (name : String) (ps : List Probe) : List Bool :=
  (ps.filter fun p => p.name = name).map Probe.ok

/-- The probes of a node at an ip. -/
def pairProbes (name : String) (ip : Json) (ps : List Probe) : List Probe :=
  ps.filter fun p => p.name = name ∧ p.ip = ip

def pairAnswers (name : String) (ip : Json) (ps : List Probe) : List Bool :=
  (pairProbes name ip ps).map Probe.ok

/-- The misses in a row at the end of some answers. -/
def streak (answers : List Bool) : ℕ := (answers.reverse.takeWhile fun ok => !ok).length

@[simp] theorem streak_answered (answers : List Bool) : streak (answers ++ [true]) = 0 := by
  simp [streak]

@[simp] theorem streak_missed (answers : List Bool) :
    streak (answers ++ [false]) = streak answers + 1 := by
  simp [streak]

/-! ## What should be printed -/

section Own

variable {threshold : ℤ}

/-- The misses of a node at an ip, and whether its last alert is that it is down. -/
structure Own where
  misses : ℕ
  alerted : Bool

/-- An answer of a probe: down is due when the misses reach the threshold, up at
the first answer after that. -/
def Own.next (threshold : ℤ) (o : Own) (ok : Bool) : Own × List Edge :=
  if ok then (⟨0, false⟩, if o.alerted then [.up] else [])
  else if o.misses + 1 = threshold then (⟨o.misses + 1, true⟩, [.down])
  else (⟨o.misses + 1, o.alerted⟩, [])

/-- The alerts due at each of the answers. -/
def Own.due (threshold : ℤ) (o : Own) : List Bool → List (List Edge)
  | [] => []
  | ok :: answers => (o.next threshold ok).2 :: Own.due threshold (o.next threshold ok).1 answers

def Own.after (threshold : ℤ) (o : Own) (answers : List Bool) : Own :=
  answers.foldl (fun o ok => (o.next threshold ok).1) o

def Own.fresh : Own := ⟨0, false⟩

theorem due_append (o : Own) (answers : List Bool) (ok : Bool) :
    o.due threshold (answers ++ [ok]) =
      o.due threshold answers ++ [((o.after threshold answers).next threshold ok).2] := by
  induction answers generalizing o with
  | nil => rfl
  | cons b answers ih =>
      simp only [List.cons_append, Own.due, ih]
      rfl

/-- The last alert is that the node is down while the misses have reached the
threshold. -/
def Own.Sound (threshold : ℤ) (o : Own) : Prop := o.alerted = true ↔ threshold ≤ o.misses

theorem Own.Sound.next (hT : 1 ≤ threshold) {o : Own} (h : o.Sound threshold) (ok : Bool) :
    (o.next threshold ok).1.Sound threshold := by
  unfold Own.Sound at h ⊢
  cases ok with
  | true =>
      simp only [Own.next, if_true]
      exact iff_of_false Bool.false_ne_true (by push_cast; omega)
  | false =>
      by_cases hreach : (o.misses : ℤ) + 1 = threshold
      · simp [Own.next, hreach]
      · simp only [Own.next, Bool.false_eq_true, if_false, hreach, h]
        push_cast
        omega

theorem sound_fresh (hT : 1 ≤ threshold) : Own.fresh.Sound threshold :=
  iff_of_false Bool.false_ne_true (by simp only [Own.fresh]; omega)

/-- After some answers of its own a node at an ip has its misses in a row. -/
theorem after_spec (hT : 1 ≤ threshold) (answers : List Bool) :
    (Own.fresh.after threshold answers).misses = streak answers ∧
      (Own.fresh.after threshold answers).Sound threshold := by
  induction answers using List.reverseRecOn with
  | nil => exact ⟨rfl, sound_fresh hT⟩
  | append_singleton answers ok ih =>
      have hafter : Own.fresh.after threshold (answers ++ [ok]) =
          ((Own.fresh.after threshold answers).next threshold ok).1 := by
        simp only [Own.after, List.foldl_append, List.foldl_cons, List.foldl_nil]
      rw [hafter]
      refine ⟨?_, ih.2.next hT ok⟩
      cases ok with
      | true => simp [Own.next]
      | false =>
          simp only [Own.next, Bool.false_eq_true, if_false, streak_missed]
          split_ifs <;> exact congrArg (· + 1) ih.1

/-- Alerts in turns. -/
def Alternate : Edge → List Edge → Prop
  | _, [] => True
  | e, x :: xs => x = e ∧ Alternate e.other xs

/-- The alerts that are due alternate. -/
theorem alternate_due (hT : 1 ≤ threshold) {o : Own} (h : o.Sound threshold) (answers : List Bool) :
    Alternate (if o.alerted then .up else .down) (o.due threshold answers).flatten := by
  induction answers generalizing o with
  | nil => trivial
  | cons ok answers ih =>
      have hrest := ih (h.next hT ok)
      unfold Own.Sound at h
      cases ok with
      | true =>
          simp only [Own.next, if_true] at hrest
          cases halerted : o.alerted with
          | true =>
              simp only [Own.due, Own.next, halerted, if_true, List.flatten_cons,
                List.singleton_append]
              exact ⟨rfl, hrest⟩
          | false => simpa [Own.due, Own.next, halerted] using hrest
      | false =>
          by_cases hreach : (o.misses : ℤ) + 1 = threshold
          · have halerted : o.alerted = false := by
              rw [Bool.eq_false_iff, ne_eq, h]
              omega
            simp only [Own.next, Bool.false_eq_true, if_false, hreach, if_true] at hrest
            simp only [Own.due, Own.next, Bool.false_eq_true, if_false, hreach, if_true, halerted,
              List.flatten_cons, List.singleton_append]
            exact ⟨rfl, hrest⟩
          · simpa [Own.due, Own.next, hreach] using hrest

end Own

/-! ## What is printed -/

/-- What a probe prints about its node and ip, with so many misses counted before it. -/
def printedEdges (threshold : ℤ) (misses : ℕ) (ok : Bool) : List Edge :=
  if ok then (if threshold ≤ misses then [.up] else [])
  else if misses + 1 = threshold then [.down] else []

theorem due_eq_printedEdges {threshold : ℤ} (hT : 1 ≤ threshold) (answers : List Bool) (ok : Bool) :
    ((Own.fresh.after threshold answers).next threshold ok).2 =
      printedEdges threshold (streak answers) ok := by
  obtain ⟨hmisses, hsound⟩ := after_spec hT answers
  unfold Own.Sound at hsound
  rw [hmisses] at hsound
  cases ok with
  | true => simp [Own.next, printedEdges, hsound]
  | false =>
      simp only [Own.next, printedEdges, Bool.false_eq_true, if_false, hmisses]
      split_ifs <;> rfl

/-- The watchdog of the daemon keeps its configuration and its counters. -/
def SameCounters (x y : Daemon) : Prop :=
  y.config = x.config ∧ y.watch.consecutiveMisses = x.watch.consecutiveMisses

variable {w u v : World} {d : ℕ}

theorem sameCounters_setDaemon {e : ℕ} {y : Daemon} (hu : u.daemons = w.daemons)
    (hy : SameCounters (w.daemons e) y) :
    SameCounters (w.daemons d) ((u.setDaemon e y).daemons d) := by
  by_cases hd : d = e
  · subst hd
    rwa [setDaemon_self]
  · rw [setDaemon_other hd, hu]
    exact ⟨rfl, rfl⟩

/-- Whoever submits, a missed probe only counts. -/
theorem probed_missed {x : Daemon} {now : ℤ} {name id : String} {ip : Json}
    {rest : List (String × Json)} {e : ℕ} (h : w.probed e x now name ip rest id (some false) = some v) :
    ∃ (u : World) (y : Daemon), v = u.setDaemon e y ∧ u.daemons = w.daemons ∧ y.config = x.config ∧
      y.watch.consecutiveMisses = Function.update x.watch.consecutiveMisses name
        (x.watch.consecutiveMisses name + 1) := by
  simp only [World.probed] at h
  split at h
  · next y hy =>
      cases h
      obtain rfl : (x.missed now name ip rest).1 = y := congrArg Prod.fst hy
      exact ⟨_, _, rfl, rfl, rfl, rfl⟩
  · next y target hy =>
      split_ifs at h
      cases h
      obtain rfl : (x.missed now name ip rest).1 = y := congrArg Prod.fst hy
      exact ⟨_, _, rfl, rfl, rfl, rfl⟩

theorem daemons_sent (w : World) (name : String) (job : Jobs.Job) (a : Attempt) :
    (w.sent name job a).daemons = w.daemons := by
  cases a with
  | answered => exact daemons_arrived w name job
  | _ => rfl

theorem attempted_sameCounters {e : ℕ} {name : String} {job : Jobs.Job} {tries : ℕ}
    {rest : List (String × Json)} {a : Attempt} :
    SameCounters (w.daemons d) ((w.attempted e (w.daemons e) name job tries rest a).daemons d) := by
  unfold World.attempted
  dsimp only
  split
  · exact sameCounters_setDaemon (daemons_sent w name job a) ⟨rfl, rfl⟩
  · exact sameCounters_setDaemon (daemons_sent w name job a) ⟨rfl, rfl⟩
  · exact sameCounters_setDaemon (daemons_sent w name job a) ⟨rfl, rfl⟩

/-- The counters after a step: a probe of the daemon counts, nothing else does. -/
def Counted (x : Daemon) (y : Daemon) : Option Probe → Prop
  | none => SameCounters x y
  | some p => y.config = x.config ∧
      y.watch.consecutiveMisses = Function.update x.watch.consecutiveMisses p.name
        (if p.ok then 0 else x.watch.consecutiveMisses p.name + 1)

theorem counted_probed {e : ℕ} {now : ℤ} {outcome : Option Bool} {id : String}
    (hs : step w (.probed e now outcome id) = some v) :
    Counted (w.daemons d) (v.daemons d) (probeOf d (w, .probed e now outcome id)) := by
  simp only [step] at hs
  split at hs
  · next name ip rest hpc =>
      cases outcome with
      | none =>
          cases hs
          exact sameCounters_setDaemon rfl ⟨rfl, rfl⟩
      | some ok =>
          by_cases hd : e = d
          · subst hd
            simp only [probeOf, if_true, hpc, Counted]
            cases ok with
            | true =>
                cases hs
                rw [setDaemon_self]
                exact ⟨rfl, rfl⟩
            | false =>
                obtain ⟨u, y, rfl, -, hconfig, hmisses⟩ := probed_missed hs
                rw [setDaemon_self]
                exact ⟨hconfig, hmisses⟩
          · simp only [probeOf, if_neg hd, Counted]
            have hframe : v.daemons d = w.daemons d := by
              cases ok with
              | true =>
                  cases hs
                  rw [setDaemon_other (Ne.symm hd)]
                  split_ifs <;> rfl
              | false =>
                  obtain ⟨u, y, rfl, hu, -⟩ := probed_missed hs
                  rw [setDaemon_other (Ne.symm hd), hu]
            rw [hframe]
            exact ⟨rfl, rfl⟩
  · cases hs

/-- A step in which the watchdog is not replaced. -/
theorem counted_step {act : Act} (hs : step w act = some v) (hlife : ∀ c, act ≠ .restart d c) :
    Counted (w.daemons d) (v.daemons d) (probeOf d (w, act)) := by
  cases act with
  | mirror e peers => cases hs; exact sameCounters_setDaemon rfl ⟨rfl, rfl⟩
  | file e text => cases hs; exact sameCounters_setDaemon rfl ⟨rfl, rfl⟩
  | lead e flag => cases hs; exact sameCounters_setDaemon rfl ⟨rfl, rfl⟩
  | restart e c =>
      cases hs
      have hd : d ≠ e := by
        rintro rfl
        exact hlife c rfl
      simp only [probeOf, Counted, setDaemon_other hd]
      exact ⟨rfl, rfl⟩
  | others records =>
      cases hs
      exact ⟨rfl, rfl⟩
  | tick e =>
      simp only [step] at hs
      split at hs
      · cases hs
        exact sameCounters_setDaemon rfl ⟨rfl, rfl⟩
      · cases hs
  | next e =>
      simp only [step] at hs
      split at hs
      · cases hs
        exact sameCounters_setDaemon rfl ⟨rfl, rfl⟩
      · cases hs
        exact sameCounters_setDaemon rfl ⟨rfl, rfl⟩
      · cases hs
  | probed e now outcome id => exact counted_probed hs
  | attempt e a =>
      simp only [step] at hs
      split at hs
      · cases hs
        exact attempted_sameCounters
      · cases hs
  | arrives i =>
      simp only [step] at hs
      split at hs
      · cases hs
        simp only [probeOf, Counted, SameCounters, daemons_arrived, and_self]
      · cases hs

/-- What a probe prints is decided by the counter of its name. -/
theorem printed_probeOf {act : Act} {p : Probe} (h : probeOf d (w, act) = some p) :
    p.printed.filterMap (edgeOf p.name p.ip) =
      printedEdges (w.daemons d).config.peerFailureThreshold
        ((w.daemons d).watch.consecutiveMisses p.name) p.ok := by
  unfold probeOf at h
  split at h
  · next e now ok id hact =>
      split_ifs at h with hd
      split at h
      · next name ip rest hpc =>
          cases h
          cases ok with
          | true =>
              simp only [printedBy, Watch.answered, printedEdges, if_true]
              split_ifs <;> simp [edgeOf]
          | false =>
              simp only [printedBy, Watch.missed, printedEdges, Bool.false_eq_true, if_false]
              push_cast
              split_ifs <;> simp [edgeOf]
      · cases h
  · cases h

/-! ## The history of a watchdog -/

/-- The counters are the misses in a row of the names, and every probe has
printed what the counter of its name says. -/
structure Recorded (threshold : ℤ) (d : ℕ) (w : World) (ps : List Probe) : Prop where
  config : (w.daemons d).config.peerFailureThreshold = threshold
  counters : ∀ n, (w.daemons d).watch.consecutiveMisses n = streak (nodeAnswers n ps)
  printed : ∀ before p, before ++ [p] <+: ps →
    p.printed.filterMap (edgeOf p.name p.ip) =
      printedEdges threshold (streak (nodeAnswers p.name before)) p.ok

theorem nodeAnswers_snoc (n : String) (ps : List Probe) (p : Probe) :
    nodeAnswers n (ps ++ [p]) =
      if p.name = n then nodeAnswers n ps ++ [p.ok] else nodeAnswers n ps := by
  unfold nodeAnswers
  rw [List.filter_append, List.map_append]
  split_ifs with h <;> simp [h]

theorem Recorded.step {threshold : ℤ} {past : List (World × Act)} {act : Act}
    (h : Recorded threshold d w (probes d past)) (hs : AutoMigrate.step w act = some v)
    (hlife : ∀ c, act ≠ .restart d c) :
    Recorded threshold d v (probes d (past ++ [(w, act)])) := by
  have hcounted := counted_step hs hlife
  have hprobes : probes d (past ++ [(w, act)]) = probes d past ++ (probeOf d (w, act)).toList := by
    simp only [probes, List.filterMap_append, List.filterMap_cons, List.filterMap_nil]
    cases probeOf d (w, act) <;> rfl
  rw [hprobes]
  cases hp : probeOf d (w, act) with
  | none =>
      rw [hp] at hcounted
      rw [Option.toList_none, List.append_nil]
      refine ⟨?_, fun n => ?_, h.printed⟩
      · rw [hcounted.1]
        exact h.config
      · rw [hcounted.2]
        exact h.counters n
  | some p =>
      rw [hp] at hcounted
      rw [Option.toList_some]
      refine ⟨?_, fun n => ?_, fun before q hq => ?_⟩
      · rw [hcounted.1]
        exact h.config
      · rw [hcounted.2, nodeAnswers_snoc]
        by_cases hn : p.name = n
        · subst hn
          rw [Function.update_self, if_pos rfl, h.counters]
          cases p.ok <;> simp
        · rw [Function.update_of_ne (Ne.symm hn), if_neg hn, h.counters]
      · rcases List.prefix_concat_iff.mp hq with heq | hold
        · obtain ⟨rfl, hlast⟩ := List.append_inj' heq rfl
          cases hlast
          rw [printed_probeOf hp, h.config, h.counters]
        · exact h.printed before q hold

theorem recorded_run {configs : ℕ → WatchConfig} {records : OrderedMap String Jobs.Job}
    {as : List Act} (hlife : ∀ act ∈ as, ∀ c, act ≠ .restart d c)
    (hr : run step (start configs records) as = some w) :
    Recorded (configs d).peerFailureThreshold d w (probes d (trace step (start configs records) as)) := by
  have hgen : ∀ (as : List Act) (s : World) (past : List (World × Act)),
      (∀ act ∈ as, ∀ c, act ≠ .restart d c) →
      Recorded (configs d).peerFailureThreshold d s (probes d past) → run step s as = some w →
        Recorded (configs d).peerFailureThreshold d w (probes d (past ++ trace step s as)) := by
    intro as
    induction as with
    | nil =>
        intro s past _ hs hr
        cases hr
        rwa [trace, List.append_nil]
    | cons act as ih =>
        intro s past hlife hs hr
        obtain ⟨t, ht, hw⟩ := run_cons.mp hr
        obtain ⟨hact, hrest⟩ := List.forall_mem_cons.mp hlife
        have hnext := ih t (past ++ [(s, act)]) hrest (hs.step ht hact) hw
        rwa [List.append_assoc, List.singleton_append, ← trace_cons ht] at hnext
  refine hgen as _ [] hlife ⟨rfl, fun n => rfl, fun before p hp => ?_⟩ hr
  have hempty := List.prefix_nil.mp hp
  simp at hempty

/-! ## Names and addresses -/

/-- The alerts of every node at every ip are those due by its own probes, and
they alternate. -/
def AlertsAreOwn (threshold : ℤ) (ps : List Probe) : Prop :=
  ∀ name ip,
    (pairProbes name ip ps).map (fun p => p.printed.filterMap (edgeOf name ip)) =
      Own.fresh.due threshold (pairAnswers name ip ps) ∧
    Alternate .down ((pairProbes name ip ps).map fun p => p.printed.filterMap (edgeOf name ip)).flatten

/-- With either number of misses before it, a probe is on the same side of the threshold. -/
def SameSide (threshold : ℤ) (m n : ℕ) (ok : Bool) : Prop :=
  if ok then (threshold ≤ m ↔ threshold ≤ n) else ((m : ℤ) + 1 = threshold ↔ (n : ℤ) + 1 = threshold)

/-- At every probe the misses in a row of the name are as good as those of the
name at this ip. -/
def NamesKeepTheirIps (threshold : ℤ) (ps : List Probe) : Prop :=
  ∀ before p, before ++ [p] <+: ps →
    SameSide threshold (streak (nodeAnswers p.name before)) (streak (pairAnswers p.name p.ip before)) p.ok

/-- So it is where a name is always at the same ip. -/
theorem namesKeepTheirIps_of_ips {threshold : ℤ} {ps : List Probe}
    (h : ∀ p ∈ ps, ∀ q ∈ ps, p.name = q.name → p.ip = q.ip) : NamesKeepTheirIps threshold ps := by
  intro before p hp
  have hown : p ∈ ps := hp.subset (List.mem_append_right _ (List.mem_singleton_self p))
  have hanswers : nodeAnswers p.name before = pairAnswers p.name p.ip before := by
    rw [nodeAnswers, pairAnswers, pairProbes]
    congr 1
    refine List.filter_congr fun q hq => ?_
    have hq' : q ∈ ps := hp.subset (List.mem_append_left _ hq)
    exact decide_eq_decide.mpr ⟨fun hname => ⟨hname, h q hq' p hown hname⟩, And.left⟩
  rw [hanswers]
  simp [SameSide]

theorem printedEdges_eq_iff {threshold : ℤ} {m n : ℕ} {ok : Bool} :
    printedEdges threshold m ok = printedEdges threshold n ok ↔ SameSide threshold m n ok := by
  cases ok with
  | true =>
      simp only [printedEdges, SameSide, if_true]
      split_ifs with h₁ h₂ h₂ <;> simp [h₁, h₂]
  | false =>
      simp only [printedEdges, SameSide, Bool.false_eq_true, if_false]
      split_ifs with h₁ h₂ h₂ <;> simp [h₁, h₂]

/-- The alerts that are printed are the alerts that are due. -/
def PrintedAsDue (threshold : ℤ) (ps : List Probe) : Prop :=
  ∀ name ip, (pairProbes name ip ps).map (fun p => p.printed.filterMap (edgeOf name ip)) =
    Own.fresh.due threshold (pairAnswers name ip ps)

theorem alertsAreOwn_iff {threshold : ℤ} (hT : 1 ≤ threshold) {ps : List Probe} :
    AlertsAreOwn threshold ps ↔ PrintedAsDue threshold ps := by
  constructor
  · exact fun h name ip => (h name ip).1
  · intro h name ip
    refine ⟨h name ip, ?_⟩
    rw [h name ip]
    exact alternate_due hT (sound_fresh hT) _

theorem pairProbes_snoc (name : String) (ip : Json) (ps : List Probe) (p : Probe) :
    pairProbes name ip (ps ++ [p]) =
      if p.name = name ∧ p.ip = ip then pairProbes name ip ps ++ [p] else pairProbes name ip ps := by
  unfold pairProbes
  rw [List.filter_append]
  split_ifs with h <;> simp [h]

/-- One more probe: what it prints is due to its node at its ip. -/
theorem printedAsDue_snoc {threshold : ℤ} (hT : 1 ≤ threshold) {ps : List Probe} {p : Probe} :
    PrintedAsDue threshold (ps ++ [p]) ↔
      PrintedAsDue threshold ps ∧
        p.printed.filterMap (edgeOf p.name p.ip) =
          printedEdges threshold (streak (pairAnswers p.name p.ip ps)) p.ok := by
  have hpair : ∀ name ip, (p.name = name ∧ p.ip = ip) →
      ((pairProbes name ip (ps ++ [p])).map (fun p => p.printed.filterMap (edgeOf name ip)) =
        Own.fresh.due threshold (pairAnswers name ip (ps ++ [p])) ↔
      (pairProbes name ip ps).map (fun p => p.printed.filterMap (edgeOf name ip)) =
        Own.fresh.due threshold (pairAnswers name ip ps) ∧
      p.printed.filterMap (edgeOf name ip) =
        printedEdges threshold (streak (pairAnswers name ip ps)) p.ok) := by
    intro name ip hp
    unfold pairAnswers
    rw [pairProbes_snoc, if_pos hp, List.map_append, List.map_append, List.map_singleton,
      List.map_singleton, due_append, due_eq_printedEdges hT]
    constructor
    · intro h
      obtain ⟨hold, hlast⟩ := List.append_inj' h rfl
      exact ⟨hold, List.singleton_injective hlast⟩
    · rintro ⟨hold, hlast⟩
      rw [hold, hlast]
  constructor
  · intro h
    refine ⟨fun name ip => ?_, ((hpair p.name p.ip ⟨rfl, rfl⟩).mp (h p.name p.ip)).2⟩
    by_cases hp : p.name = name ∧ p.ip = ip
    · exact ((hpair name ip hp).mp (h name ip)).1
    · have hsame := h name ip
      unfold pairAnswers at hsame
      rwa [pairProbes_snoc, if_neg hp] at hsame
  · rintro ⟨h, hlast⟩ name ip
    by_cases hp : p.name = name ∧ p.ip = ip
    · obtain ⟨rfl, rfl⟩ := hp
      exact (hpair p.name p.ip ⟨rfl, rfl⟩).mpr ⟨h p.name p.ip, hlast⟩
    · unfold pairAnswers
      rw [pairProbes_snoc, if_neg hp]
      exact h name ip

theorem namesKeepTheirIps_snoc {threshold : ℤ} {ps : List Probe} {p : Probe} :
    NamesKeepTheirIps threshold (ps ++ [p]) ↔
      NamesKeepTheirIps threshold ps ∧
        SameSide threshold (streak (nodeAnswers p.name ps)) (streak (pairAnswers p.name p.ip ps)) p.ok := by
  constructor
  · intro h
    exact ⟨fun before q hq => h before q (hq.trans (List.prefix_append _ _)),
      h ps p (List.prefix_refl _)⟩
  · rintro ⟨h, hlast⟩ before q hq
    rcases List.prefix_concat_iff.mp hq with heq | hold
    · obtain ⟨rfl, hsame⟩ := List.append_inj' heq rfl
      cases hsame
      exact hlast
    · exact h before q hold

theorem printedAsDue_iff {threshold : ℤ} (hT : 1 ≤ threshold) {ps : List Probe}
    (h : ∀ before p, before ++ [p] <+: ps →
      p.printed.filterMap (edgeOf p.name p.ip) =
        printedEdges threshold (streak (nodeAnswers p.name before)) p.ok) :
    PrintedAsDue threshold ps ↔ NamesKeepTheirIps threshold ps := by
  induction ps using List.reverseRecOn with
  | nil =>
      refine iff_of_true (fun _ _ => rfl) fun before p hp => ?_
      have hempty := List.prefix_nil.mp hp
      simp at hempty
  | append_singleton ps p ih =>
      have hold := ih fun before q hq => h before q (hq.trans (List.prefix_append _ _))
      rw [printedAsDue_snoc hT, namesKeepTheirIps_snoc, hold, h ps p (List.prefix_refl _),
        printedEdges_eq_iff]

/-- In a run of a watchdog the alerts of every node at every ip are its own
exactly when at every probe the misses in a row of the name, over all its ips,
are on the same side of the threshold as those of the name at this ip. -/
theorem alerts_own_iff {configs : ℕ → WatchConfig} {records : OrderedMap String Jobs.Job}
    {as : List Act} {w : World} {d : ℕ} (hT : 1 ≤ (configs d).peerFailureThreshold)
    (hlife : ∀ act ∈ as, ∀ c, act ≠ .restart d c)
    (hr : run step (start configs records) as = some w) :
    AlertsAreOwn (configs d).peerFailureThreshold (probes d (trace step (start configs records) as)) ↔
      NamesKeepTheirIps (configs d).peerFailureThreshold
        (probes d (trace step (start configs records) as)) := by
  rw [alertsAreOwn_iff hT]
  exact printedAsDue_iff hT (recorded_run hlife hr).printed

def watchConfig : WatchConfig := ⟨"node-1", "10.0.0.1", 1, false, 30⟩

def mirrorWith (ip : String) : List (String × Json) := [("node-2", .obj [("ip", .str ip)])]

/-- One tick of the first daemon with the second node at an ip. -/
def tickAt (ip : String) (ok : Bool) : List Act :=
  [.mirror 0 (mirrorWith ip), .tick 0, .next 0, .probed 0 0 (some ok) "", .next 0]

/-- The node goes down and comes back at its ip. -/
def sameIp : List Act := tickAt "10.0.0.2" false ++ tickAt "10.0.0.2" true

/-- The name comes back at another ip. -/
def otherIp : List Act := tickAt "10.0.0.2" false ++ tickAt "10.0.0.9" true

theorem not_restart {as : List Act} (h : as.all (fun act => match act with
    | .restart _ _ => false
    | _ => true) = true) : ∀ act ∈ as, ∀ c, act ≠ .restart 0 c := by
  rintro act hact c rfl
  exact absurd (List.all_eq_true.mp h _ hact) Bool.false_ne_true

theorem namesKeep_sameIp :
    NamesKeepTheirIps 1 (probes 0 (trace step (start (fun _ => watchConfig) .empty) sameIp)) := by
  have hprobed : (probes 0 (trace step (start (fun _ => watchConfig) .empty) sameIp)).map
      (fun p => (p.name, p.ip)) = [("node-2", .str "10.0.0.2"), ("node-2", .str "10.0.0.2")] := by
    decide +kernel
  have hone : ∀ p ∈ probes 0 (trace step (start (fun _ => watchConfig) .empty) sameIp),
      p.ip = .str "10.0.0.2" := by
    intro p hp
    have hmem := List.mem_map_of_mem (f := fun p : Probe => (p.name, p.ip)) hp
    rw [hprobed] at hmem
    have hpair : p.name = "node-2" ∧ p.ip = .str "10.0.0.2" := by simpa using hmem
    exact hpair.2
  exact namesKeepTheirIps_of_ips fun p hp q hq _ => (hone p hp).trans (hone q hq).symm

theorem alerts_own_sameIp : ∃ w, run step (start (fun _ => watchConfig) .empty) sameIp = some w ∧
    AlertsAreOwn 1 (probes 0 (trace step (start (fun _ => watchConfig) .empty) sameIp)) := by
  have hrun : (run step (start (fun _ => watchConfig) .empty) sameIp).isSome = true := by
    decide +kernel
  obtain ⟨w, hw⟩ := Option.isSome_iff_exists.mp hrun
  exact ⟨w, hw, (alerts_own_iff (d := 0) (by decide) (not_restart rfl) hw).mpr namesKeep_sameIp⟩

/-- The node at its new ip is announced up, and it was never down. -/
theorem up_without_down : ∃ w, run step (start (fun _ => watchConfig) .empty) otherIp = some w ∧
    ¬AlertsAreOwn 1 (probes 0 (trace step (start (fun _ => watchConfig) .empty) otherIp)) := by
  have hrun : (run step (start (fun _ => watchConfig) .empty) otherIp).isSome = true := by
    decide +kernel
  obtain ⟨w, hw⟩ := Option.isSome_iff_exists.mp hrun
  refine ⟨w, hw, fun h => ?_⟩
  have hup : ((pairProbes "node-2" (.str "10.0.0.9")
      (probes 0 (trace step (start (fun _ => watchConfig) .empty) otherIp))).map fun p =>
        p.printed.filterMap (edgeOf "node-2" (.str "10.0.0.9"))) = [[.up]] := by
    decide +kernel
  have halternate := (h "node-2" (.str "10.0.0.9")).2
  rw [hup] at halternate
  cases halternate.1

end MilvusOnprem.PeerAlerts
