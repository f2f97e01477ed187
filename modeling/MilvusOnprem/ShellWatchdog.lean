import MilvusOnprem.PeerAlerts

/-!
# The watchdog of the shell

`watchdog_run` counts the failed probes of every ip and remembers for which of them it has
alerted. On the same answers it prints the alerts that the watchdog of the daemon prints, in the
same order, as long as every name stands for one ip.
-/
namespace MilvusOnprem.ShellWatchdog

open PeerWatchdog PeerAlerts
open Jobs (nanoseconds)

/-! ## Machines that print -/

section Follow

variable {σ τ ι ω χ : Type}

/-- What a machine prints while it reads some inputs. -/
def follow (f : σ → ι → σ × List ω) (s : σ) : List ι → List ω
  | [] => []
  | i :: is => (f s i).2 ++ follow f (f s i).1 is

/-- Two machines that stay related and print related lines at every input print related lines. -/
theorem forall₂_follow {f : σ → ι → σ × List ω} {g : τ → ι → τ × List χ} {R : σ → τ → Prop}
    {S : ω → χ → Prop} {P : ι → Prop}
    (hstep : ∀ s t i, P i → R s t → R (f s i).1 (g t i).1 ∧ List.Forall₂ S (f s i).2 (g t i).2)
    {is : List ι} (his : ∀ i ∈ is, P i) {s : σ} {t : τ} (h : R s t) :
    List.Forall₂ S (follow f s is) (follow g t is) := by
  induction is generalizing s t with
  | nil => exact .nil
  | cons i is ih =>
      rw [List.forall_mem_cons] at his
      obtain ⟨hrel, hprinted⟩ := hstep s t i his.1 h
      exact List.rel_append hprinted (ih his.2 hrel)

end Follow

/-! ## The loop -/

/-- What `watchdog_run` finds before its loop. -/
structure Setup where
  PEERS_ARR : List String
  LOCAL_IP : String
  threshold : ℤ
  mode : String

/-- The arrays of the loop, by ip. -/
structure Counts where
  failCount : String → ℤ
  downSinceEpoch : String → ℤ
  alerted : String → Bool

def Counts.fresh : Counts := ⟨fun _ => 0, fun _ => 0, fun _ => false⟩

/-- A line of `_watchdog_alert`; its last field counts failures or seconds. -/
structure ShellAlert where
  kind : Edge
  ts : ℤ
  node : String
  ip : String
  mode : String
  field : ℤ

/-- `date +%s` -/
def epoch (now : ℤ) : ℤ := now / nanoseconds 1

/-- `_watchdog_peer_node_name` -/
def watchdogPeerNodeName (ips : List String) (target : String) : String :=
  match ips.findIdx? fun ip => ip = target with
  | some i => "node-" ++ toString (i + 1)
  | none => "unknown"

/-- The result of a probe, and the clock: when it is counted, and when its alert is printed. -/
structure Reply where
  ok : Bool
  now : ℤ
  printed : ℤ

structure Answer extends Reply where
  ip : String

namespace Setup

variable (c : Setup)

def alert (kind : Edge) (a : Answer) (field : ℤ) : ShellAlert :=
  ⟨kind, epoch a.printed, watchdogPeerNodeName c.PEERS_ARR a.ip, a.ip, c.mode, field⟩

/-- The body of the loop. -/
def probed (s : Counts) (a : Answer) : Counts × List ShellAlert :=
  if a.ok then
    if s.alerted a.ip then
      (⟨Function.update s.failCount a.ip 0, Function.update s.downSinceEpoch a.ip 0,
          Function.update s.alerted a.ip false⟩,
        [c.alert .up a (epoch a.now - s.downSinceEpoch a.ip)])
    else ({ s with failCount := Function.update s.failCount a.ip 0 }, [])
  else
    let failures := s.failCount a.ip + 1
    if failures = c.threshold then
      (⟨Function.update s.failCount a.ip failures, Function.update s.downSinceEpoch a.ip (epoch a.now),
          Function.update s.alerted a.ip true⟩,
        [c.alert .down a failures])
    else ({ s with failCount := Function.update s.failCount a.ip failures }, [])

/-- The probes of one pass over the peers: every one but the own is answered. -/
def pass (answers : ℕ → Reply) : List Answer :=
  (c.PEERS_ARR.zipIdx.filter fun p => p.1 ≠ c.LOCAL_IP).map fun p => ⟨answers p.2, p.1⟩

/-- The probes of some passes. -/
def passes (rounds : List (ℕ → Reply)) : List Answer := rounds.flatMap c.pass

/-- What `watchdog_run` prints in some passes. -/
def watchdogRun (rounds : List (ℕ → Reply)) : List ShellAlert := follow c.probed .fresh (c.passes rounds)

/-- The body of the loop, with the answer beside every alert that it prints. -/
def logged (s : Counts) (a : Answer) : Counts × List (Answer × ShellAlert) :=
  ((c.probed s a).1, (c.probed s a).2.map fun x => (a, x))

/-- The alerts of some passes, each with its answer. -/
def log (rounds : List (ℕ → Reply)) : List (Answer × ShellAlert) := follow c.logged .fresh (c.passes rounds)

end Setup

/-! ## The alerts of a peer -/

section Alerts

variable (c : Setup)

/-- The alerts of one ip: each says that it is down when its failures reach the threshold, and the next
one how many seconds later it was up. -/
def Paired : Option ℤ → List (Answer × ShellAlert) → Prop
  | _, [] => True
  | none, (a, x) :: xs => x.kind = .down ∧ x.field = c.threshold ∧ x.ts = epoch a.printed ∧
      Paired (some (epoch a.now)) xs
  | some since, (a, x) :: xs => x.kind = .up ∧ x.field = epoch a.now - since ∧ x.ts = epoch a.printed ∧
      Paired none xs

/-- Since when an ip is known to be down. -/
def Counts.since (s : Counts) (ip : String) : Option ℤ := if s.alerted ip then some (s.downSinceEpoch ip) else none

variable {c} {s : Counts} {a : Answer}

theorem probed_up (hok : a.ok = true) (hup : s.alerted a.ip = true) : c.probed s a =
    (⟨Function.update s.failCount a.ip 0, Function.update s.downSinceEpoch a.ip 0,
      Function.update s.alerted a.ip false⟩, [c.alert .up a (epoch a.now - s.downSinceEpoch a.ip)]) := by
  rw [Setup.probed, if_pos hok, if_pos hup]

theorem probed_answered (hok : a.ok = true) (hup : s.alerted a.ip = false) :
    c.probed s a = ({ s with failCount := Function.update s.failCount a.ip 0 }, []) := by
  rw [Setup.probed, if_pos hok, hup, if_neg Bool.false_ne_true]

theorem probed_down (hok : a.ok = false) (hreach : s.failCount a.ip + 1 = c.threshold) : c.probed s a =
    (⟨Function.update s.failCount a.ip (s.failCount a.ip + 1), Function.update s.downSinceEpoch a.ip (epoch a.now),
      Function.update s.alerted a.ip true⟩, [c.alert .down a (s.failCount a.ip + 1)]) := by
  rw [Setup.probed, hok, if_neg Bool.false_ne_true]
  exact if_pos hreach

theorem probed_failed (hok : a.ok = false) (hreach : s.failCount a.ip + 1 ≠ c.threshold) : c.probed s a =
    ({ s with failCount := Function.update s.failCount a.ip (s.failCount a.ip + 1) }, []) := by
  rw [Setup.probed, hok, if_neg Bool.false_ne_true]
  exact if_neg hreach

/-- The answer of another ip. -/
theorem probed_other {ip : String} (h : a.ip ≠ ip) : (c.probed s a).1.failCount ip = s.failCount ip ∧
    (c.probed s a).1.alerted ip = s.alerted ip ∧ (c.probed s a).1.downSinceEpoch ip = s.downSinceEpoch ip ∧
      ∀ x ∈ (c.probed s a).2, x.ip ≠ ip := by
  have hne := Ne.symm h
  cases hok : a.ok with
  | true =>
      cases hup : s.alerted a.ip with
      | true => simp [probed_up hok hup, Function.update_of_ne hne, Setup.alert, h]
      | false => simp [probed_answered hok hup, Function.update_of_ne hne]
  | false =>
      by_cases hreach : s.failCount a.ip + 1 = c.threshold
      · simp [probed_down hok hreach, Function.update_of_ne hne, Setup.alert, h]
      · simp [probed_failed hok hreach, Function.update_of_ne hne]

/-- The answer of the ip itself. -/
theorem probed_own (hcount : s.alerted a.ip = true → c.threshold ≤ s.failCount a.ip) :
    ((c.probed s a).1.alerted a.ip = true → c.threshold ≤ (c.probed s a).1.failCount a.ip) ∧
      (∀ x ∈ (c.probed s a).2, x.ip = a.ip) ∧
      ∀ xs, Paired c ((c.probed s a).1.since a.ip) xs → Paired c (s.since a.ip) ((c.logged s a).2 ++ xs) := by
  cases hok : a.ok with
  | true =>
      cases hup : s.alerted a.ip with
      | true => simp [Setup.logged, probed_up hok hup, Counts.since, hup, Paired, Setup.alert]
      | false => simp [Setup.logged, probed_answered hok hup, Counts.since, hup]
  | false =>
      by_cases hreach : s.failCount a.ip + 1 = c.threshold
      · have hfresh : s.alerted a.ip = false := by
          rw [Bool.eq_false_iff]
          intro halert
          have hle := hcount halert
          omega
        simp [Setup.logged, probed_down hok hreach, Counts.since, hreach, hfresh, Paired, Setup.alert]
      · rw [Setup.logged, probed_failed hok hreach]
        refine ⟨fun halert => ?_, by simp, fun xs hxs => hxs⟩
        have hle := hcount halert
        simp only [Function.update_self]
        omega

/-- The log has the alerts that are printed. -/
theorem map_log (c : Setup) (as : List Answer) (s : Counts) :
    (follow c.logged s as).map Prod.snd = follow c.probed s as := by
  induction as generalizing s with
  | nil => rfl
  | cons a as ih =>
      have hmap : (c.logged s a).2.map Prod.snd = (c.probed s a).2 := by simp [Setup.logged]
      rw [follow, follow, List.map_append, hmap, ← ih]
      rfl

/-- Over any passes the alerts of every ip are downs and ups in turns. -/
theorem paired_log (c : Setup) (ip : String) (as : List Answer) (s : Counts)
    (hcount : s.alerted ip = true → c.threshold ≤ s.failCount ip) :
    Paired c (s.since ip) ((follow c.logged s as).filter fun p => p.2.ip = ip) := by
  induction as generalizing s with
  | nil => exact trivial
  | cons a as ih =>
      rw [follow, List.filter_append]
      by_cases hip : a.ip = ip
      · subst hip
        obtain ⟨hcount', hown, hpaired⟩ := probed_own hcount
        have hall : (c.logged s a).2.filter (fun p => p.2.ip = a.ip) = (c.logged s a).2 := by
          refine List.filter_eq_self.mpr fun p hp => ?_
          obtain ⟨x, hx, rfl⟩ := List.mem_map.mp hp
          simpa using hown x hx
        rw [hall]
        exact hpaired _ (ih _ hcount')
      · obtain ⟨hfail, halert, hepoch, hnone⟩ := @probed_other c s a ip hip
        have hsince : (c.logged s a).1.since ip = s.since ip := by
          rw [Counts.since, Counts.since, Setup.logged, halert, hepoch]
        have hskip : (c.logged s a).2.filter (fun p => p.2.ip = ip) = [] := by
          rw [List.filter_eq_nil_iff]
          intro p hp
          obtain ⟨x, hx, rfl⟩ := List.mem_map.mp hp
          simpa using hnone x hx
        rw [hskip, List.nil_append, ← hsince]
        refine ih _ ?_
        rwa [Setup.logged, halert, hfail]

/-- Beside the alerts that are printed stand the answers from which each ip's alerts follow. -/
theorem alerts_paired (c : Setup) (rounds : List (ℕ → Reply)) :
    (c.log rounds).map Prod.snd = c.watchdogRun rounds ∧
      ∀ ip, Paired c none ((c.log rounds).filter fun p => p.2.ip = ip) := by
  refine ⟨map_log c _ .fresh, fun ip => ?_⟩
  have hfresh : Counts.fresh.alerted ip = true → c.threshold ≤ Counts.fresh.failCount ip := by simp [Counts.fresh]
  exact paired_log c ip (c.passes rounds) .fresh hfresh

end Alerts

/-! ## The daemon -/

/-- The watchdog of a daemon on the same answers. -/
def daemonProbed (config : WatchConfig) (name : String → String) (w : Watch) (a : Answer) : Watch × List Alert :=
  if a.ok then w.answered config a.now (name a.ip) (.str a.ip) else w.missed config a.now (name a.ip) (.str a.ip)

/-- The two lines are about the same peer, and say the same up to the seconds that both clocks round. -/
def Same (name : String → String) (s : ShellAlert) : Alert → Prop
  | .peerUp _ node ip seconds => s.kind = .up ∧ node = name s.ip ∧ ip = .str s.ip ∧ |s.field - seconds| ≤ 1
  | .peerDown _ node ip failures => s.kind = .down ∧ node = name s.ip ∧ ip = .str s.ip ∧ s.field = failures
  | .autoMigratePulsar .. => False

/-- A duration of the shell and one of the daemon. -/
theorem seconds_close (now since : ℤ) : |epoch now - epoch since - seconds (now - since)| ≤ 1 := by
  have hnano : nanoseconds 1 = 1000000000 := by decide
  unfold epoch seconds
  rw [hnano, abs_le]
  by_cases h : 0 ≤ now - since
  · rw [Int.tdiv_eq_ediv_of_nonneg h]
    omega
  · have hneg : (now - since).tdiv 1000000000 = -((since - now) / 1000000000) := by
      rw [← Int.neg_sub since now, Int.neg_tdiv, Int.tdiv_eq_ediv_of_nonneg (by omega)]
    rw [hneg]
    omega

section Agreement

variable {c : Setup} {config : WatchConfig} {name : String → String}

/-- The counters of the two watchdogs. -/
structure Together (c : Setup) (name : String → String) (s : Counts) (w : Watch) : Prop where
  misses : ∀ ip ∈ c.PEERS_ARR, s.failCount ip = w.consecutiveMisses (name ip)
  alerted : ∀ ip ∈ c.PEERS_ARR, s.alerted ip = true ↔ c.threshold ≤ s.failCount ip
  since : ∀ ip ∈ c.PEERS_ARR, s.alerted ip = true →
    ∃ t, w.downSince (name ip) = some t ∧ s.downSinceEpoch ip = epoch t

theorem together_fresh (hT : 1 ≤ c.threshold) : Together c name .fresh .fresh where
  misses _ _ := rfl
  alerted _ _ := iff_of_false Bool.false_ne_true (by simp only [Counts.fresh]; omega)
  since _ _ h := absurd h Bool.false_ne_true

/-- An answer changes what is counted for its own ip. -/
theorem Together.step {s s' : Counts} {w w' : Watch} (h : Together c name s w) {own : String} {misses : ℕ}
    (hname : ∀ ip ∈ c.PEERS_ARR, ip ≠ own → name ip ≠ name own)
    (hfail : s'.failCount = Function.update s.failCount own misses)
    (hmisses : w'.consecutiveMisses = Function.update w.consecutiveMisses (name own) misses)
    (hothers : ∀ ip ≠ own, s'.alerted ip = s.alerted ip ∧ s'.downSinceEpoch ip = s.downSinceEpoch ip)
    (hnames : ∀ n ≠ name own, w'.downSince n = w.downSince n)
    (halerted : s'.alerted own = true ↔ c.threshold ≤ misses)
    (hsince : s'.alerted own = true → ∃ t, w'.downSince (name own) = some t ∧ s'.downSinceEpoch own = epoch t) :
    Together c name s' w' := by
  refine ⟨fun ip hip => ?_, fun ip hip => ?_, fun ip hip hup => ?_⟩
  · by_cases hown : ip = own
    · rw [hfail, hmisses, hown, Function.update_self, Function.update_self]
    · rw [hfail, hmisses, Function.update_of_ne hown, Function.update_of_ne (hname ip hip hown), h.misses ip hip]
  · by_cases hown : ip = own
    · rw [hfail, hown, Function.update_self, halerted]
    · rw [hfail, Function.update_of_ne hown, (hothers ip hown).1, h.alerted ip hip]
  · by_cases hown : ip = own
    · rw [hown]
      exact hsince (hown ▸ hup)
    · rw [(hothers ip hown).2, hnames _ (hname ip hip hown)]
      exact h.since ip hip ((hothers ip hown).1 ▸ hup)

/-- An answered probe keeps the counters together, and both watchdogs print the same. -/
theorem together_answered (hT : 1 ≤ c.threshold) (hconfig : config.peerFailureThreshold = c.threshold)
    {s : Counts} {w : Watch} {a : Answer} (hother : ∀ ip ∈ c.PEERS_ARR, ip ≠ a.ip → name ip ≠ name a.ip)
    (ha : a.ip ∈ c.PEERS_ARR)
    (h : Together c name s w) (hok : a.ok = true) :
    Together c name (c.probed s a).1 (w.answered config a.now (name a.ip) (.str a.ip)).1 ∧
      List.Forall₂ (Same name) (c.probed s a).2 (w.answered config a.now (name a.ip) (.str a.ip)).2 := by
  have halerted := h.alerted a.ip ha
  have hmisses := h.misses a.ip ha
  cases hup : s.alerted a.ip with
  | true =>
      have hreached : config.peerFailureThreshold ≤ w.consecutiveMisses (name a.ip) := by
        rw [hconfig, ← hmisses]
        exact halerted.mp hup
      obtain ⟨t, hdown, hepoch⟩ := h.since a.ip ha hup
      rw [probed_up hok hup]
      constructor
      · apply @Together.step c name s _ w _ h a.ip 0 hother rfl rfl
        · exact fun ip hip => ⟨Function.update_of_ne hip _ _, Function.update_of_ne hip _ _⟩
        · intro n hn
          simp [Watch.answered, Watch.discard, hreached, Function.update_of_ne hn]
        · simp only [Function.update_self, Bool.false_eq_true, false_iff]
          omega
        · simp
      · have hclose : |epoch a.now - s.downSinceEpoch a.ip - seconds (a.now - t)| ≤ 1 := by
          rw [hepoch]
          exact seconds_close a.now t
        simp only [Watch.answered, hreached, if_true, hdown, Option.getD_some]
        exact .cons ⟨rfl, rfl, rfl, hclose⟩ .nil
  | false =>
      have hbelow : ¬config.peerFailureThreshold ≤ w.consecutiveMisses (name a.ip) := by
        rw [hconfig, ← hmisses, ← halerted, hup]
        exact Bool.false_ne_true
      rw [probed_answered hok hup]
      constructor
      · apply @Together.step c name s _ w _ h a.ip 0 hother rfl rfl
        · exact fun ip _ => ⟨rfl, rfl⟩
        · exact fun n _ => congrFun (if_neg hbelow) n
        · simp only [hup, Bool.false_eq_true, false_iff]
          omega
        · exact fun halert => absurd (hup.symm.trans halert) Bool.false_ne_true
      · simp only [Watch.answered, hbelow, if_false]
        exact .nil

/-- A missed probe keeps the counters together, and both watchdogs print the same. -/
theorem together_missed (hconfig : config.peerFailureThreshold = c.threshold) {s : Counts} {w : Watch}
    {a : Answer} (hother : ∀ ip ∈ c.PEERS_ARR, ip ≠ a.ip → name ip ≠ name a.ip) (ha : a.ip ∈ c.PEERS_ARR)
    (h : Together c name s w) (hok : a.ok = false) :
    Together c name (c.probed s a).1 (w.missed config a.now (name a.ip) (.str a.ip)).1 ∧
      List.Forall₂ (Same name) (c.probed s a).2 (w.missed config a.now (name a.ip) (.str a.ip)).2 := by
  have hcount : s.failCount a.ip + 1 = ((w.consecutiveMisses (name a.ip) + 1 : ℕ) : ℤ) := by
    rw [h.misses a.ip ha, Nat.cast_succ]
  by_cases hreach : s.failCount a.ip + 1 = c.threshold
  · have hdown : ((w.consecutiveMisses (name a.ip) + 1 : ℕ) : ℤ) = config.peerFailureThreshold := by
      rw [hconfig, ← hreach, hcount]
    rw [probed_down hok hreach]
    constructor
    · apply @Together.step c name s _ w _ h a.ip (w.consecutiveMisses (name a.ip) + 1) hother (by rw [hcount]) rfl
      · exact fun ip hip => ⟨Function.update_of_ne hip _ _, Function.update_of_ne hip _ _⟩
      · intro n hn
        simp [Watch.missed, hdown, Function.update_of_ne hn]
      · simp only [Function.update_self, true_iff]
        omega
      · intro _
        simp [Watch.missed, hdown]
    · simp only [Watch.missed, hdown, if_true]
      exact .cons ⟨rfl, rfl, rfl, hcount⟩ .nil
  · have hmiss : ¬((w.consecutiveMisses (name a.ip) + 1 : ℕ) : ℤ) = config.peerFailureThreshold := by
      rw [hconfig, ← hcount]
      exact hreach
    rw [probed_failed hok hreach]
    constructor
    · apply @Together.step c name s _ w _ h a.ip (w.consecutiveMisses (name a.ip) + 1) hother (by rw [hcount]) rfl
      · exact fun ip _ => ⟨rfl, rfl⟩
      · exact fun n _ => congrFun (if_neg hmiss) n
      · rw [h.alerted a.ip ha]
        omega
      · intro halert
        obtain ⟨t, hdown, hepoch⟩ := h.since a.ip ha halert
        exact ⟨t, (congrFun (if_neg hmiss) (name a.ip)).trans hdown, hepoch⟩
    · simp only [Watch.missed, hmiss, if_false]
      exact .nil

/-- On the same answers both watchdogs print the same alerts in the same order. -/
theorem watchdogs_agree (hT : 1 ≤ c.threshold) (hconfig : config.peerFailureThreshold = c.threshold)
    (hname : ∀ ip ∈ c.PEERS_ARR, ∀ ip' ∈ c.PEERS_ARR, name ip = name ip' → ip = ip')
    (rounds : List (ℕ → Reply)) :
    List.Forall₂ (Same name) (c.watchdogRun rounds) (follow (daemonProbed config name) .fresh (c.passes rounds)) := by
  have hlisted : ∀ a ∈ c.passes rounds, a.ip ∈ c.PEERS_ARR := by
    intro a ha
    obtain ⟨answers, -, ha⟩ := List.mem_flatMap.mp ha
    obtain ⟨p, hp, rfl⟩ := List.mem_map.mp ha
    exact List.fst_mem_of_mem_zipIdx (List.mem_filter.mp hp).1
  refine forall₂_follow (fun s w a ha h => ?_) hlisted (@together_fresh c name hT)
  have hother : ∀ ip ∈ c.PEERS_ARR, ip ≠ a.ip → name ip ≠ name a.ip := fun ip hip hne heq =>
    hne (hname ip hip a.ip ha heq)
  unfold daemonProbed
  split_ifs with hok
  · exact together_answered hT hconfig hother ha h hok
  · exact together_missed hconfig hother ha h (Bool.eq_false_iff.mpr hok)

end Agreement

/-- Two hosts, and a threshold of two. -/
def pair : Setup := ⟨["10.0.0.1", "10.0.0.2"], "10.0.0.1", 2, "monitor"⟩

/-- Two failed passes and an answered one. -/
def outage : List (ℕ → Reply) :=
  [fun _ => ⟨false, 0, 0⟩, fun _ => ⟨false, 5 * nanoseconds 1, 6 * nanoseconds 1⟩,
    fun _ => ⟨true, 15 * nanoseconds 1, 15 * nanoseconds 1⟩]

theorem watchdogs_agree_outage : (pair.watchdogRun outage).map ShellAlert.kind = [.down, .up] ∧
    List.Forall₂ (Same (watchdogPeerNodeName pair.PEERS_ARR)) (pair.watchdogRun outage)
      (follow (daemonProbed ⟨"node-1", "10.0.0.1", 2, false, 30⟩ (watchdogPeerNodeName pair.PEERS_ARR)) .fresh
        (pair.passes outage)) :=
  ⟨by decide, watchdogs_agree (by decide) rfl (by decide) outage⟩

end MilvusOnprem.ShellWatchdog
