import MilvusOnprem.JoinerSettings

/-!
# Rotations and migrations that agree

What the steps of the jobs keep, and from it: once all jobs have ended done and
all joins have returned, every peer has the same token and the same host.
-/
namespace MilvusOnprem.SettingsAgreement

open PythonText EtcdClient MilvusOnprem.Topology Joining OrderedPeers EnvFile RotationLogs MigrateSteps GuardedRuns
open Cluster (holdsLock JoinSlot)
open ConcurrentJobs SharedSettings SettingsInvariant JoinerSettings
open MigratePulsar (Files fileText ipOrEmpty Migration)
open TopologyWatcher (Mirror contents get_contents)

variable {w v : World} {id : ℕ}

theorem token_mem : CLUSTER_TOKEN ∈ settings := mem_settings.mpr (.inl rfl)

theorem host_mem : PULSAR_HOST ∈ settings := mem_settings.mpr (.inr rfl)

/-! ## What a rotation does -/

/-- A rotation that starts goes through the peers in order; its own daemon comes
last. -/
theorem starts_ok {host : ℕ} {leaderName : String} {port : ℤ} {params : List (String × Json)}
    {isLeader : Bool} {peers : List (String × Json)} {x : Worker} {es : List Effect}
    (h : Worker.starts host leaderName port params isLeader peers = some (.ok (x, es))) :
    ∃ sorted, sortedPeers peers = .ok sorted ∧ newTokenOf params = some x.newToken ∧
      x.host = host ∧
      x.followers = ((sorted.filter fun p => p.1 ≠ leaderName).map fun p => ⟨p.1, p.2, .created⟩) ∧
      (x.pc = .fanning ∨ x.pc = .own .updating ∧ x.followers = []) := by
  obtain ⟨token, htoken, h⟩ := Option.map_eq_some_iff.mp h
  split_ifs at h
  cases hsorted : sortedPeers peers with
  | error e =>
      rw [hsorted] at h
      cases h
  | ok sorted =>
      rw [hsorted] at h
      dsimp only at h
      split_ifs at h with hnone
      · cases h
        exact ⟨sorted, rfl, htoken, rfl, rfl, .inr ⟨rfl, by rw [hnone, List.map_nil]⟩⟩
      · cases h
        exact ⟨sorted, rfl, htoken, rfl, rfl, .inl rfl⟩

/-- The step of a rotation by itself, or with the answer of a follower. -/
inductive Moved (x : Worker) : WorkerInput → Worker → Prop
  | gathered : x.pc = .fanning → (∀ f ∈ x.followers, f.pc.over = true) →
      Moved x .gathered { x with pc := x.gathered.1 }
  | remote {i name f pc es} : x.pc = .fanning → i.follower = some name → f ∈ x.followers →
      f.name = name → x.remote f i = some (pc, es) →
      Moved x i { x with followers := x.followers.map fun g =>
        if g.name = name then { g with pc := pc } else g }
  | own {pc i qc lines nodeName} : x.pc = .own pc → pc.proceed nodeName i = some (qc, lines) →
      handling qc = true → Moved x (.self i) { x with pc := .own qc }
  | ended {pc i e lines nodeName} : x.pc = .own pc → pc.proceed nodeName i = some (.ended e, lines) →
      Moved x (.self i) { x with pc := .ended e }

theorem moved_of_proceed {x : Worker} {nodeName : String} {i : WorkerInput}
    {r : Worker × List Effect} (h : x.proceed nodeName i = some r) : Moved x i r.1 := by
  unfold Worker.proceed at h
  split at h
  · next hpc =>
      split_ifs at h with hover
      cases h
      exact .gathered hpc (by simpa using hover)
  · next hpc _ =>
      simp only [Option.bind_eq_bind, Option.bind_eq_some_iff] at h
      obtain ⟨name, hname, f, hf, ⟨pc, es⟩, hremote, h⟩ := h
      cases h
      exact .remote hpc hname (List.mem_of_find?_eq_some hf) (by simpa using List.find?_some hf) hremote
  · next pc i hpc =>
      obtain ⟨⟨qc, lines⟩, hqc, rfl⟩ := Option.map_eq_some_iff.mp h
      cases qc with
      | ended e =>
          cases e with
          | none => exact .ended hpc hqc
          | some e => exact .ended hpc hqc
      | _ => exact .own hpc hqc rfl
  · cases h

theorem runtimeError_ne_empty (detail : String) : runtimeError detail ≠ "" := by
  intro h
  exact absurd (String.append_eq_empty_iff.mp h).1 (by decide)

theorem afterRender_cases (nodeName : String) (rc : ℤ) (err : String) (composeExists : Bool) :
    (SelfPc.afterRender nodeName rc err composeExists).1 = .spawning ∨
      ∃ detail, (SelfPc.afterRender nodeName rc err composeExists).1 =
        .ended (some (runtimeError detail)) := by
  unfold SelfPc.afterRender
  split_ifs
  · exact .inr ⟨_, rfl⟩
  · exact .inr ⟨_, rfl⟩
  · exact .inr ⟨_, rfl⟩
  · exact .inl rfl

/-- The step of a rotation of one's own file. -/
theorem self_cases {nodeName : String} {pc qc : SelfPc} {i : SelfInput} {lines : List String}
    (h : pc.proceed nodeName i = some (qc, lines)) : handling pc = true ∧
      (pc = .updating ∧ qc = .rendering ∧ pc.writes i = true ∨
        wrote pc = true ∧ (qc = .spawning ∨ qc = .ended none) ∧ pc.writes i = false ∨
          ∃ e, qc = .ended (some e) ∧ (named i = true → e ≠ "")) := by
  unfold SelfPc.proceed at h
  split at h
  · cases h
    exact ⟨rfl, .inl ⟨rfl, rfl, rfl⟩⟩
  · next rc err composeExists =>
      have hqc := congrArg Prod.fst (Option.some.inj h)
      refine ⟨rfl, .inr ?_⟩
      rcases afterRender_cases nodeName rc err composeExists with hnext | ⟨detail, hnext⟩
      · exact .inl ⟨rfl, .inl (hqc.symm.trans hnext), rfl⟩
      · exact .inr ⟨_, hqc.symm.trans hnext, fun _ => runtimeError_ne_empty detail⟩
  · rw [Option.some.injEq, Prod.mk.injEq] at h
    obtain ⟨rfl, -⟩ := h
    refine ⟨rfl, .inr ?_⟩
    split_ifs
    · exact .inr ⟨_, rfl, fun _ => runtimeError_ne_empty _⟩
    · exact .inl ⟨rfl, .inr rfl, rfl⟩
  · cases h
    exact ⟨rfl, .inr (.inr ⟨_, rfl, by simp [named]⟩)⟩
  · cases h
    exact ⟨rfl, .inr (.inr ⟨_, rfl, by simp [named]⟩)⟩
  · cases h
    exact ⟨rfl, .inr (.inr ⟨_, rfl, by simp [named]⟩)⟩
  · cases h

/-- A request ends well only with the report of a handler that did not fail. -/
theorem remote_rotated {x : Worker} {f : Follower} {i : WorkerInput} {es : List Effect}
    (h : x.remote f i = some (.rotated, es)) :
    ∃ name log error, i = .answers name (.report log error) ∧ (error = none ∨ error = some "") := by
  unfold Worker.remote at h
  split at h
  · split_ifs at h
    cases h
  · split_ifs at h
    all_goals cases h
  · split_ifs at h
    next name r _ =>
      cases r with
      | report log error =>
          refine ⟨name, log, error, rfl, ?_⟩
          simp only [Worker.answered, Option.some.injEq] at h
          split at h
          · exact .inl rfl
          · exact .inr rfl
          · cases h
      | _ => cases h
  · cases h

/-! ## The steps of a rotation -/

theorem unlocked_of_noJoin (h : noJoin w = true) : Unlocked w := by
  intro other slot hslot
  have hfree := List.all_eq_true.mp h (other, slot) (OrderedMap.mem_entries.mpr hslot)
  simpa using hfree

theorem doomed_setRotation {job : String} {x : Worker} {e : String} (h : x.pc = .ended (some e)) :
    Doomed (w.setRotation job x) := .inl ⟨job, x, e, OrderedMap.get_put_self _ _ _, h⟩

theorem working_of_moved {x y : Worker} {i : WorkerInput} (h : Moved x i y) : working x = true := by
  cases h with
  | gathered hpc _ | remote hpc _ _ _ _ | own hpc _ _ | ended hpc _ => rw [working, hpc]

theorem isPeer_of_sorted {kv : OrderedMap String String} {sorted : List (String × String)}
    (h : sortedPeers (contents kv).entries = .ok sorted) {p : String × String} (hp : p ∈ sorted) :
    IsPeer kv p.2 := by
  obtain ⟨info, hinfo, hip⟩ := (mem_sortedPeers h).mp hp
  rw [OrderedMap.mem_entries, get_contents] at hinfo
  exact ⟨p.1, info, hinfo, hip⟩

/-- A rotation that starts on an accurate list still has every file to see. -/
theorem rotationFit_starts {d : ℕ} {params : List (String × Json)} {isLeader : Bool} {x : Worker}
    {es : List Effect} (hplain : Plain x.newToken)
    (hregistered : registered w.base.etcd.kv (w.config d) = true)
    (h : Worker.starts d (w.config d).nodeName (w.config d).listenPort params isLeader
      (contents w.base.etcd.kv).entries = some (.ok (x, es))) :
    RotationFit w.base.etcd.kv w.localIp w.files x := by
  obtain ⟨sorted, hsorted, -, rfl, hfollowers, hpc⟩ := starts_ok h
  have hnames : sorted.Pairwise fun p q => p.1 ≠ q.1 :=
    (sortedPeers_pairwise ((contents w.base.etcd.kv).sorted.imp fun hlt => hlt.ne) hsorted).imp
      fun hbefore => hbefore.2
  refine ⟨hplain, isPeer_of_registered hregistered, ?_, ?_, ?_⟩
  · intro f hf
    rw [hfollowers] at hf
    obtain ⟨p, hp, rfl⟩ := List.mem_map.mp hf
    exact isPeer_of_sorted hsorted (List.mem_of_mem_filter hp)
  · rw [hfollowers]
    exact (hnames.filter _).map _ fun p q hpq => hpq
  · intro ip hip
    left
    obtain ⟨name, info, hinfo, hused⟩ := hip
    have hmem : (name, ip) ∈ sorted := by
      rw [mem_sortedPeers hsorted]
      exact ⟨info, by rwa [OrderedMap.mem_entries, get_contents], hused⟩
    by_cases hname : name = (w.config x.host).nodeName
    · have hown : ip = w.localIp x.host := by
        simp only [registered, Bool.and_eq_true, decide_eq_true_eq] at hregistered
        obtain ⟨info', hinfo', hip'⟩ := Option.bind_eq_some_iff.mp hregistered.1
        rw [← hname, hinfo] at hinfo'
        cases hinfo'
        rw [(usedIp_of_ipOf hip' hregistered.2).1, Option.some.injEq] at hused
        exact hused.symm
      rcases hpc with hpc | ⟨hpc, -⟩
      · rw [Pending, hpc]
        exact .inl hown
      · rw [Pending, hpc]
        exact hown
    · have hfollower : (⟨name, ip, .created⟩ : Follower) ∈ x.followers := by
        rw [hfollowers]
        refine List.mem_map.mpr ⟨(name, ip), List.mem_filter.mpr ⟨hmem, ?_⟩, rfl⟩
        simpa using hname
      rcases hpc with hpc | ⟨-, hnone⟩
      · rw [Pending, hpc]
        exact .inr ⟨_, hfollower, rfl, by simp⟩
      · rw [hnone] at hfollower
        cases hfollower

theorem inv_rotateStarts (h : Good w) {job : String} {d : ℕ} {peers : Mirror}
    {params : List (String × Json)} {r : Except String (Worker × List Effect)}
    (haccurate : accurate w (.rotateStarts job d peers params) = true)
    (hapart : apart w (.rotateStarts job d peers params) = true)
    (hnew : w.rotations.get job = none)
    (hr : Worker.starts d (w.config d).nodeName (w.config d).listenPort params (w.base.isLeader d)
      peers.entries = some r) :
    Inv (w.setRotation job (started d (w.config d) r)) := by
  cases r with
  | error e => exact .inl (doomed_setRotation rfl)
  | ok r =>
      obtain ⟨x, es⟩ := r
      change Inv (w.setRotation job x)
      simp only [accurate, Bool.and_eq_true, decide_eq_true_eq] at haccurate
      obtain ⟨rfl, hregistered⟩ := haccurate
      obtain ⟨sorted, -, htoken, -, hfollowers, hpc⟩ := starts_ok hr
      simp only [apart, htoken, Option.all_some, Bool.and_eq_true, decide_eq_true_eq,
        List.all_eq_true] at hapart
      obtain ⟨hfree, hplain, hsame⟩ := hapart
      have hworking : working x = true := by
        rcases hpc with hpc | ⟨hpc, -⟩ <;> rw [working, hpc]
      refine .inr (h.setRotation (unlocked_of_noJoin hfree)
        (fun _ => rotationFit_starts hplain hregistered hr) ?_ ⟨?_, ?_⟩ ?_ ?_)
      · rintro y ⟨⟨other, hy⟩, hworking'⟩ -
        have htoken' := hsame (other, y) (OrderedMap.mem_entries.mpr hy)
        simpa [hworking'] using htoken'
      · intro f hf hrotated
        rw [hfollowers] at hf
        obtain ⟨p, -, rfl⟩ := List.mem_map.mp hf
        cases hrotated
      · intro hfanning f hf
        rcases hpc with hpc | ⟨-, hnone⟩
        · exact absurd hpc hfanning
        · rw [hnone] at hf
          cases hf
      · intro name y hy
        exact absurd hnew (h.handlings job name y hy).sent
      · intro hidle
        exact absurd (hworking.symm.trans hidle) (by simp)

section Moves

variable {job : String} {x y : Worker}

theorem unlocked_of_rotating (h : Good w) (hx : rotating w x) : Unlocked w := h.jobsApart (.inl ⟨x, hx⟩)

/-- The fan-out is over. -/
theorem inv_gathered (h : Good w) (hx : w.rotations.get job = some x) (hpc : x.pc = .fanning)
    (hover : ∀ f ∈ x.followers, f.pc.over = true) :
    Inv (w.setRotation job { x with pc := x.gathered.1 }) := by
  have hrotating : rotating w x := ⟨⟨job, hx⟩, by rw [working, hpc]⟩
  by_cases hfailures : x.followers.filterMap Worker.failure = []
  · have hnext : x.gathered.1 = .own .updating := by
      simp only [Worker.gathered, hfailures, ne_eq, not_true_eq_false, if_false]
    have hall : ∀ f ∈ x.followers, f.pc = .rotated := by
      intro f hf
      have hfine := List.filterMap_eq_nil_iff.mp hfailures f hf
      have hdone := hover f hf
      cases hfpc : f.pc with
      | rotated => rfl
      | failed text => simp [Worker.failure, hfpc] at hfine
      | created | posting =>
          rw [hfpc] at hdone
          cases hdone
    rw [hnext]
    obtain ⟨hplain, hhosted, hpeers, hdistinct, hcovers⟩ := h.rotations x hrotating
    refine .inr (h.setRotation (unlocked_of_rotating h hrotating) (fun _ => ?_)
      (fun y hy _ => h.oneToken y x hy hrotating) ⟨(h.answered job x hx).handled, fun _ => hall⟩ ?_
      (fun hended => by cases hended))
    · refine ⟨hplain, hhosted, hpeers, hdistinct, fun ip hip => ?_⟩
      refine (hcovers ip hip).imp_left fun hpending => ?_
      rw [Pending, hpc] at hpending
      rcases hpending with hown | ⟨f, hf, -, hnot⟩
      · exact hown
      · exact absurd (hall f hf) hnot
    · intro name y hy
      obtain ⟨-, hnamed, hlive, hfollows⟩ := hx ▸ h.handlings job name y hy
      refine ⟨by simp, hnamed, fun hhandling => ?_, ?_⟩
      · obtain ⟨x', hx', -, hnot⟩ := hlive hhandling
        cases hx'
        obtain ⟨-, ⟨f, hf, hname, -⟩, -⟩ := hfollows x rfl hrotating.2
        exact absurd (hall f hf) (hnot f hf hname)
      · rintro x' ⟨⟩ -
        exact hfollows x rfl hrotating.2
  · have hfails : ∃ e, x.gathered.1 = .ended (some e) := by
      unfold Worker.gathered
      rw [if_pos hfailures]
      exact ⟨_, rfl⟩
    obtain ⟨e, he⟩ := hfails
    exact .inl (doomed_setRotation he)

/-- The follower of a name in another state. -/
def setFollower (x : Worker) (name : String) (pc : RemotePc) : Worker :=
  { x with followers := x.followers.map fun g => if g.name = name then { g with pc := pc } else g }

theorem mem_setFollower {name : String} {pc : RemotePc} {g : Follower} :
    g ∈ (setFollower x name pc).followers ↔
      ∃ f ∈ x.followers, g = if f.name = name then { f with pc := pc } else f := by
  simp only [setFollower, List.mem_map, eq_comm]

theorem follower_eq (hdistinct : x.followers.Pairwise fun f g => f.name ≠ g.name) {f g : Follower}
    (hf : f ∈ x.followers) (hg : g ∈ x.followers) (hname : g.name = f.name) : g = f := by
  have : Std.Symm fun f g : Follower => f.name ≠ g.name := ⟨fun _ _ h => h.symm⟩
  by_contra hne
  exact hdistinct.forall hg hf hne hname

/-- A request to a follower goes on; one that ended well has met a handler that has
written the token. -/
theorem inv_remote (h : Good w) (hx : w.rotations.get job = some x) (hpc : x.pc = .fanning)
    {f : Follower} {pc : RemotePc} (hf : f ∈ x.followers)
    (hhandled : pc = .rotated → ∃ y, w.handlings job f.name = some y ∧ y.pc = .ended none) :
    Inv (w.setRotation job (setFollower x f.name pc)) := by
  have hrotating : rotating w x := ⟨⟨job, hx⟩, by rw [working, hpc]⟩
  obtain ⟨hplain, hhosted, hpeers, hdistinct, hcovers⟩ := h.rotations x hrotating
  have hanswered := h.answered job x hx
  -- what a follower of the new list was before
  have hbefore : ∀ g ∈ (setFollower x f.name pc).followers, ∃ g₀ ∈ x.followers,
      g.name = g₀.name ∧ g.ip = g₀.ip ∧ (g₀ = f ∧ g.pc = pc ∨ g₀.name ≠ f.name ∧ g.pc = g₀.pc) := by
    intro g hg
    obtain ⟨g₀, hg₀, rfl⟩ := mem_setFollower.mp hg
    refine ⟨g₀, hg₀, ?_⟩
    split_ifs with hname
    · exact ⟨rfl, rfl, .inl ⟨follower_eq hdistinct hf hg₀ hname, rfl⟩⟩
    · exact ⟨rfl, rfl, .inr ⟨hname, rfl⟩⟩
  refine .inr (h.setRotation (unlocked_of_rotating h hrotating) (fun _ => ?_)
    (fun y hy _ => h.oneToken y x hy hrotating) ⟨?_, fun hnot => absurd hpc hnot⟩ ?_
    (fun hended => ?_))
  · refine ⟨hplain, hhosted, ?_, ?_, ?_⟩
    · intro g hg
      obtain ⟨g₀, hg₀, -, hip, -⟩ := hbefore g hg
      exact hip ▸ hpeers g₀ hg₀
    · refine hdistinct.map _ fun g₁ g₂ hne => ?_
      split_ifs <;> exact hne
    · intro ip hip
      have hfanning : (setFollower x f.name pc).pc = .fanning := hpc
      rw [Pending, hfanning]
      rcases hcovers ip hip with hpending | hsets
      · rw [Pending, hpc] at hpending
        rcases hpending with hown | ⟨g, hg, rfl, hnot⟩
        · exact .inl (.inl hown)
        · by_cases hname : g.name = f.name
          · cases follower_eq hdistinct hf hg hname
            by_cases hrotated : pc = .rotated
            · obtain ⟨y, hy, hended⟩ := hhandled hrotated
              obtain ⟨-, ⟨f', hf', hname', hip'⟩, hwrote⟩ :=
                (hx ▸ h.handlings job f.name y hy).follows x rfl hrotating.2
              cases follower_eq hdistinct hf hf' hname'
              rw [hip']
              exact .inr (hwrote (by rw [hended]; rfl))
            · exact .inl (.inr ⟨_, mem_setFollower.mpr ⟨f, hf, rfl⟩, by simp, by simpa using hrotated⟩)
          · exact .inl (.inr ⟨g, mem_setFollower.mpr ⟨g, hg, by rw [if_neg hname]⟩, rfl, hnot⟩)
      · exact .inr hsets
  · intro g hg hrotated
    obtain ⟨g₀, hg₀, hname, -, hpc'⟩ := hbefore g hg
    rcases hpc' with ⟨rfl, hnew⟩ | ⟨-, hsame⟩
    · obtain ⟨y, hy, -⟩ := hhandled (hnew.symm.trans hrotated)
      rw [hname, hy]
      simp
    · rw [hname]
      exact hanswered.handled g₀ hg₀ (hsame.symm.trans hrotated)
  · intro name y hy
    obtain ⟨-, hnamed, hlive, hfollows⟩ := hx ▸ h.handlings job name y hy
    refine ⟨by simp, hnamed, fun hhandling => ⟨_, rfl, hpc, fun g hg hgname hrotated => ?_⟩, ?_⟩
    · obtain ⟨g₀, hg₀, hname, -, hpc'⟩ := hbefore g hg
      rcases hpc' with ⟨rfl, hnew⟩ | ⟨-, hsame⟩
      · obtain ⟨y', hy', hended⟩ := hhandled (hnew.symm.trans hrotated)
        rw [← hname, hgname, hy] at hy'
        cases hy'
        rw [hended] at hhandling
        cases hhandling
      · obtain ⟨x', hx', -, hnot⟩ := hlive hhandling
        cases hx'
        exact hnot g₀ hg₀ (hname.symm.trans hgname) (hsame.symm.trans hrotated)
    · rintro x' ⟨⟩ -
      obtain ⟨hvalue, ⟨f', hf', hname', hip'⟩, hwrote⟩ := hfollows x rfl hrotating.2
      refine ⟨hvalue, ⟨_, mem_setFollower.mpr ⟨f', hf', rfl⟩, ?_, ?_⟩, hwrote⟩
      · split_ifs <;> exact hname'
      · split_ifs <;> exact hip'
  · exact absurd (hrotating.2.symm.trans hended) (by simp)

/-- The files agree once all of them have been written and no join is past the lock. -/
theorem agreed_of_all (hfree : Unlocked w) {key : Key} {value : Option String}
    (hall : ∀ ip, IsPeer w.base.etcd.kv ip → Sets key value (w.files ip)) :
    Agreed w.base.etcd.kv w.base.joins w.files key value := by
  refine ⟨fun ip hip _ => hall ip hip, fun other slot name env hslot hpc => ?_⟩
  have hlock := hfree other slot hslot
  rw [hpc] at hlock
  cases hlock

/-- The rotation goes on, or ends done, after all files have been written. -/
theorem good_own (h : Good w) (hx : w.rotations.get job = some x) {pc : SelfPc}
    (hpc : x.pc = .own pc) {qc : WorkerPc}
    (hall : ∀ ip, IsPeer w.base.etcd.kv ip → Sets CLUSTER_TOKEN (some x.newToken) (w.files ip)) :
    Good (w.setRotation job { x with pc := qc }) := by
  have hrotating : rotating w x := ⟨⟨job, hx⟩, by rw [working, hpc]⟩
  have hfree := unlocked_of_rotating h hrotating
  obtain ⟨hplain, hhosted, hpeers, hdistinct, -⟩ := h.rotations x hrotating
  obtain ⟨hhandled, hrotated⟩ := h.answered job x hx
  refine h.setRotation hfree
    (fun _ => ⟨hplain, hhosted, hpeers, hdistinct, fun ip hip => .inr (hall ip hip)⟩)
    (fun y hy _ => h.oneToken y x hy hrotating)
    ⟨hhandled, fun _ => hrotated (by rw [hpc]; simp)⟩ ?_ (fun _ => ⟨_, agreed_of_all hfree hall⟩)
  intro name y hy
  obtain ⟨-, hnamed, hlive, hfollows⟩ := hx ▸ h.handlings job name y hy
  refine ⟨by simp, hnamed, fun hhandling => ?_, ?_⟩
  · obtain ⟨x', hx', hfanning, -⟩ := hlive hhandling
    cases hx'
    cases hpc.symm.trans hfanning
  · rintro x' ⟨⟩ -
    exact hfollows x rfl hrotating.2

/-- Past the write of its own file a rotation has no file left. -/
theorem all_of_wrote (h : Good w) (hx : w.rotations.get job = some x) {pc : SelfPc}
    (hpc : x.pc = .own pc) (hwrote : wrote pc = true) :
    ∀ ip, IsPeer w.base.etcd.kv ip → Sets CLUSTER_TOKEN (some x.newToken) (w.files ip) := by
  intro ip hip
  rcases (h.rotations x ⟨⟨job, hx⟩, by rw [working, hpc]⟩).covers ip hip with hpending | hsets
  · rw [Pending, hpc] at hpending
    cases pc with
    | updating => cases hwrote
    | _ => cases hpending
  · exact hsets

theorem inv_rotate (h : Good w) (hx : w.rotations.get job = some x) {i : WorkerInput}
    (hmoved : Moved x i y) (hreport : isReport i = false) (hwrites : x.writes i = false) :
    Inv (w.setRotation job y) := by
  cases hmoved with
  | gathered hpc hover => exact inv_gathered h hx hpc hover
  | remote hpc _ hf hname hremote =>
      subst hname
      refine inv_remote h hx hpc hf ?_
      rintro rfl
      obtain ⟨name, log, error, rfl, -⟩ := remote_rotated hremote
      cases hreport
  | own hpc hself hhandling =>
      obtain ⟨-, ⟨rfl, -, hwrite⟩ | ⟨hwrote, -, -⟩ | ⟨e, rfl, -⟩⟩ := self_cases hself
      · simp only [Worker.writes, hpc, hwrite] at hwrites
        cases hwrites
      · exact .inr (good_own h hx hpc (all_of_wrote h hx hpc hwrote))
      · cases hhandling
  | @ended pc i e _ _ hpc hself =>
      cases e with
      | some e => exact .inl (doomed_setRotation rfl)
      | none =>
          obtain ⟨-, ⟨-, hqc, -⟩ | ⟨hwrote, -, -⟩ | ⟨e, hqc, -⟩⟩ := self_cases hself
          · cases hqc
          · exact .inr (good_own h hx hpc (all_of_wrote h hx hpc hwrote))
          · cases hqc

/-- The rotation writes the file of its own daemon. -/
theorem inv_rotateWrites (h : Good w) (hx : w.rotations.get job = some x) {i : WorkerInput}
    (hmoved : Moved x i y) (hwrites : x.writes i = true) :
    Inv ((w.upsert CLUSTER_TOKEN x.newToken (w.localIp x.host)).setRotation job y) := by
  cases hmoved with
  | gathered hpc _ => cases hwrites
  | remote hpc _ _ _ _ =>
      simp only [Worker.writes, hpc] at hwrites
      split at hwrites <;> cases hwrites
  | own hpc hself hhandling =>
      obtain ⟨-, ⟨rfl, rfl, -⟩ | ⟨-, -, hnot⟩ | ⟨e, rfl, -⟩⟩ := self_cases hself
      · have hrotating : rotating w x := ⟨⟨job, hx⟩, by rw [working, hpc]⟩
        have hfit := h.rotations x hrotating
        obtain ⟨h', hwritten⟩ := h.write token_mem hfit.plain hfit.hosted (fun _ => ⟨x, hrotating, rfl⟩)
          (fun heq => absurd heq (by decide))
        refine .inr (good_own h' hx hpc fun ip hip => ?_)
        rcases (h'.rotations x hrotating).covers ip hip with hpending | hsets
        · rw [Pending, hpc] at hpending
          exact hpending ▸ hwritten
        · exact hsets
      · simp only [Worker.writes, hpc, hnot] at hwrites
        cases hwrites
      · cases hhandling
  | @ended pc i e _ _ hpc hself =>
      obtain ⟨-, ⟨-, hqc, -⟩ | ⟨-, -, hnot⟩ | ⟨e, hqc, -⟩⟩ := self_cases hself
      · cases hqc
      · simp only [Worker.writes, hpc, hnot] at hwrites
        cases hwrites
      · cases hqc
        exact .inl (doomed_setRotation rfl)

/-! ## The steps of a follower -/

/-- A request reaches its follower. -/
theorem good_handle (h : Good w) {name : String} {e : ℕ}
    (hx : w.rotations.get job = some x) (hnew : w.handlings job name = none)
    (hsent : x.sent name (w.localIp e) = true) :
    Good (w.setHandling job name ⟨e, job, name, x.newToken, .updating, SelfPc.starts⟩) := by
  simp only [Worker.sent, List.any_eq_true, Bool.and_eq_true, decide_eq_true_eq] at hsent
  obtain ⟨f, hf, ⟨hname, hip⟩, -⟩ := hsent
  obtain ⟨hhandled, hall⟩ := h.answered job x hx
  have hunanswered : ∀ g ∈ x.followers, g.name = name → g.pc ≠ .rotated := by
    rintro g hg rfl hrotated
    exact hhandled g hg hrotated hnew
  have hfanning : x.pc = .fanning := by
    by_contra hother
    exact hunanswered f hf hname (hall hother f hf)
  refine h.setHandling ⟨by simp [hx], by simp, fun _ => ⟨x, hx, hfanning, hunanswered⟩, ?_⟩
  intro x' hx' _
  cases hx.symm.trans hx'
  exact ⟨rfl, ⟨f, hf, hname, hip⟩, fun hwrote => by cases hwrote⟩

/-- A live handler belongs to a rotation that waits for it. -/
theorem rotating_of_handling (h : Good w) {name : String} {z : Handling}
    (hz : w.handlings job name = some z) (hhandling : handling z.pc = true) :
    ∃ x, w.rotations.get job = some x ∧ rotating w x ∧ z.newToken = x.newToken ∧
      IsPeer w.base.etcd.kv (w.localIp z.host) := by
  obtain ⟨-, -, hlive, hfollows⟩ := h.handlings job name z hz
  obtain ⟨x, hx, hfanning, -⟩ := hlive hhandling
  have hworking : working x = true := by rw [working, hfanning]
  obtain ⟨hvalue, ⟨f, hf, -, hip⟩, -⟩ := hfollows x hx hworking
  refine ⟨x, hx, ⟨⟨job, hx⟩, hworking⟩, hvalue, ?_⟩
  exact hip ▸ (h.rotations x ⟨⟨job, hx⟩, hworking⟩).peers f hf

/-- The handler goes on; past the write its file has the token. -/
theorem good_handler (h : Good w) {name nodeName : String} {z z' : Handling} {i : SelfInput}
    (hz : w.handlings job name = some z) (hnamed : named i = true)
    (hproceed : z.proceed nodeName i = some z')
    (hwritten : z.pc.writes i = true → Sets CLUSTER_TOKEN (some z.newToken) (w.files (w.localIp z.host))) :
    Good (w.setHandling job name z') := by
  obtain ⟨⟨qc, lines⟩, hqc, rfl⟩ := Option.map_eq_some_iff.mp hproceed
  obtain ⟨hhandling, hcases⟩ := self_cases hqc
  obtain ⟨hsent, -, hlive, hfollows⟩ := h.handlings job name z hz
  refine h.setHandling ⟨hsent, ?_, fun _ => hlive hhandling, fun x hx hworking => ?_⟩
  · rintro hempty
    rcases hcases with ⟨-, rfl, -⟩ | ⟨-, rfl | rfl, -⟩ | ⟨e, rfl, he⟩
    · cases hempty
    · cases hempty
    · cases hempty
    · cases hempty
      exact he hnamed rfl
  · obtain ⟨hvalue, hfollower, hwrote⟩ := hfollows x hx hworking
    refine ⟨hvalue, hfollower, fun hdone => ?_⟩
    rcases hcases with ⟨-, rfl, hwrites⟩ | ⟨hbefore, -, -⟩ | ⟨e, rfl, -⟩
    · exact hvalue ▸ hwritten hwrites
    · exact hwrote hbefore
    · cases hdone

/-- The handler writes the file of its daemon. -/
theorem good_handledWrites (h : Good w) {name nodeName : String} {z z' : Handling} {i : SelfInput}
    (hz : w.handlings job name = some z) (hnamed : named i = true)
    (hproceed : z.proceed nodeName i = some z') :
    Good ((w.upsert CLUSTER_TOKEN z.newToken (w.localIp z.host)).setHandling job name z') := by
  obtain ⟨⟨qc, lines⟩, hqc, -⟩ := Option.map_eq_some_iff.mp hproceed
  obtain ⟨x, -, hrotating, hvalue, hpeer⟩ := rotating_of_handling h hz (self_cases hqc).1
  obtain ⟨h', hwritten⟩ := h.write token_mem (hvalue ▸ (h.rotations x hrotating).plain) hpeer
    (fun _ => ⟨x, hrotating, hvalue.symm⟩) (fun heq => absurd heq (by decide))
  exact good_handler h' hz hnamed hproceed fun _ => hwritten

/-- The report of a follower reaches the rotation. -/
theorem inv_replies (h : Good w) {name : String} {z : Handling} {error : Option String}
    (hz : w.handlings job name = some z) (hx : w.rotations.get job = some x)
    (hended : z.pc = .ended error)
    (hmoved : Moved x (.answers name (.report z.captured error)) y) : Inv (w.setRotation job y) := by
  generalize hi : WorkerInput.answers name (.report z.captured error) = i at hmoved
  cases hmoved with
  | gathered | own | ended => cases hi
  | @remote _ name' f pc es hpc hfollower hf hname hremote =>
      rw [← hi] at hfollower hremote
      cases hfollower
      subst hname
      refine inv_remote h hx hpc hf ?_
      rintro rfl
      obtain ⟨_, _, _, heq, herror⟩ := remote_rotated hremote
      cases heq
      rcases herror with rfl | rfl
      · exact ⟨z, hz, hended⟩
      · exact absurd hended (h.handlings job f.name z hz).named

end Moves

/-! ## What a migration does -/

theorem ipOrEmpty_of_usedIp {info : Json} {ip : String} (h : usedIp info = some ip) :
    ipOrEmpty (some info) = .ok (some ip) := by
  cases info with
  | obj fields =>
      have hne : fields ≠ [] := by
        rintro rfl
        cases h
      simp only [usedIp] at h
      split at h
      · next v hv =>
          split_ifs at h with htruthy
          cases h
          have hobj : (Json.obj fields).truthy = true := by simpa [Json.truthy] using hne
          simp only [ipOrEmpty, hobj, if_true, infoGet, Except.map, hv, Option.bind_some, htruthy]
      · cases h
  | _ => cases h

theorem usedIp_of_ipOrEmpty {entry : Option Json} {ip : String}
    (h : ipOrEmpty entry = .ok (some ip)) : ∃ info, entry = some info ∧ usedIp info = some ip := by
  cases entry with
  | none => cases h
  | some info =>
      refine ⟨info, rfl, ?_⟩
      simp only [ipOrEmpty] at h
      split_ifs at h
      rotate_left
      · cases h
      cases info with
      | obj fields =>
          simp only [infoGet, Except.map, Except.ok.injEq] at h
          obtain ⟨v, hv, hip⟩ := Option.bind_eq_some_iff.mp h
          split_ifs at hip with htruthy
          cases hip
          simp only [usedIp, hv, htruthy, if_true]
      | _ => cases h

variable {j : MigrateJob}

theorem looked_cases (isLeader : Bool) (own : Lines) :
    (∃ e, MigrateJob.looked isLeader own = .raised e) ∨ MigrateJob.looked isLeader own = .reading := by
  unfold MigrateJob.looked
  split_ifs
  · exact .inl ⟨_, rfl⟩
  · exact .inl ⟨_, rfl⟩
  · exact .inr rfl

theorem located_cases (j : MigrateJob) (own : Lines) (peers : Mirror) :
    (∃ e, j.located own peers = .raised e) ∨ j.located own peers = .done ∨
      ∃ targetIp old oldIp, j.located own peers = .probing peers targetIp old oldIp ∧
        ipOrEmpty (peers.get j.toNode) = .ok (some targetIp) ∧ ipOrEmpty (peers.get old) = .ok oldIp := by
  unfold MigrateJob.located
  cases hinfo : peers.get j.toNode with
  | none => exact .inl ⟨_, rfl⟩
  | some info =>
      dsimp only
      cases htarget : ipOrEmpty (some info) with
      | error e => exact .inl ⟨e, rfl⟩
      | ok target =>
          cases target with
          | none => exact .inl ⟨_, rfl⟩
          | some targetIp =>
              dsimp only
              split_ifs with hcurrent
              · exact .inr (.inl rfl)
              · cases hold : ipOrEmpty (peers.get (readValue PULSAR_HOST "node-1" own)) with
                | error e => exact .inl ⟨e, rfl⟩
                | ok oldIp => exact .inr (.inr ⟨targetIp, _, oldIp, rfl, rfl, hold⟩)

/-- The apply goes through the new host, every other peer, and the old host. -/
theorem sequenced_covers {kv : OrderedMap String String} {toNode targetIp old : String}
    {oldIp : Option String} {sorted : List (String × String)}
    (htarget : ipOrEmpty ((contents kv).get toNode) = .ok (some targetIp))
    (hold : ipOrEmpty ((contents kv).get old) = .ok oldIp)
    (hsorted : ∀ name ip, (name, ip) ∈ sorted ↔
      ∃ info, entryOf kv name = some info ∧ usedIp info = some ip) :
    (∀ p ∈ Migration.sequenced toNode targetIp old oldIp false sorted, IsPeer kv p.2) ∧
      ∀ ip, IsPeer kv ip →
        ∃ p ∈ Migration.sequenced toNode targetIp old oldIp false sorted, p.2 = ip := by
  rw [get_contents] at htarget hold
  obtain ⟨info, hinfo, hused⟩ := usedIp_of_ipOrEmpty htarget
  constructor
  · intro p hp
    simp only [Migration.sequenced, List.cons_append, List.mem_cons, List.mem_append] at hp
    rcases hp with rfl | hp | hp
    · exact ⟨toNode, info, hinfo, hused⟩
    · obtain ⟨info', hinfo', hused'⟩ := (hsorted p.1 p.2).mp (List.mem_of_mem_filter hp)
      exact ⟨p.1, info', hinfo', hused'⟩
    · cases oldIp with
      | none => cases hp
      | some ip =>
          obtain rfl : p = (old, ip) := by simpa using hp
          obtain ⟨info', hinfo', hused'⟩ := usedIp_of_ipOrEmpty hold
          exact ⟨old, info', hinfo', hused'⟩
  · rintro ip ⟨name, info', hinfo', hused'⟩
    by_cases hnew : name = toNode
    · subst hnew
      rw [hinfo] at hinfo'
      cases hinfo'
      rw [hused] at hused'
      cases hused'
      exact ⟨(name, targetIp), List.mem_cons_self, rfl⟩
    by_cases hprevious : name = old
    · subst hprevious
      rw [hinfo', ipOrEmpty_of_usedIp hused'] at hold
      cases hold
      exact ⟨(name, ip), by simp [Migration.sequenced], rfl⟩
    · refine ⟨(name, ip), ?_, rfl⟩
      have hmem : (name, ip) ∈ sorted.filter fun p => p.1 ≠ toNode ∧ p.1 ≠ old :=
        List.mem_filter.mpr ⟨(hsorted name ip).mpr ⟨info', hinfo', hused'⟩, by simp [hnew, hprevious]⟩
      unfold Migration.sequenced
      rw [List.cons_append]
      exact List.mem_cons_of_mem _ (List.mem_append_left _ hmem)

/-- What the preflight leads to when the old host is not left out. -/
theorem probed_cases {slot : MigrationSlot} {net : MigratePulsar.Network}
    {kv : OrderedMap String String} {targetIp old : String} {oldIp : Option String}
    (hpc : slot.thread.pc = .probing (contents kv) targetIp old oldIp)
    (hkeeps : leavesOut slot net = false)
    (htarget : ipOrEmpty ((contents kv).get slot.job.toNode) = .ok (some targetIp))
    (hold : ipOrEmpty ((contents kv).get old) = .ok oldIp) :
    (∃ e, slot.job.probed net (contents kv) targetIp old oldIp = .raised e) ∨
      ∃ queue watched, slot.job.probed net (contents kv) targetIp old oldIp = .applying queue watched ∧
        (∀ p ∈ queue, IsPeer kv p.2) ∧ ∀ ip, IsPeer kv ip → ∃ p ∈ queue, p.2 = ip := by
  unfold MigrateJob.probed
  cases hips : withIps (contents kv).entries with
  | error e => exact .inl ⟨e, rfl⟩
  | ok ips =>
      dsimp only
      split_ifs with hreach
      · exact .inl ⟨_, rfl⟩
      · simp only [leavesOut, hpc, hips] at hkeeps
        refine .inr ⟨_, _, rfl, ?_⟩
        rw [hkeeps]
        refine sequenced_covers htarget hold fun name ip => ?_
        rw [List.mem_insertionSort, withIps_ok hips]
        simp only [List.mem_filterMap, Option.map_eq_some_iff, Prod.mk.injEq]
        constructor
        · rintro ⟨e, he, ip', hip, rfl, rfl⟩
          refine ⟨e.2, ?_, hip⟩
          rw [← get_contents]
          exact OrderedMap.mem_entries.mp he
        · rintro ⟨info, hinfo, hip⟩
          rw [← get_contents] at hinfo
          exact ⟨(name, info), OrderedMap.mem_entries.mpr hinfo, ip, hip, rfl, rfl⟩

/-! ## The steps of a migration -/

section Migrations

variable {slot : MigrationSlot} {t : Thread MigratePc} {c : Option SyncCall}

theorem doomed_setMigration {e : Exc} (h : slot.thread.pc = .raised e) :
    Doomed ((w.setMigration id slot).sent id c) := by
  obtain ⟨syncs, hsent, -, -⟩ := sent_eq (w.setMigration id slot) id c
  rw [hsent]
  exact .inr (.inl ⟨id, slot, e, OrderedMap.get_put_self _ _ _, h⟩)

theorem inv_migrateStarts (h : Good w) {d : ℕ} {toNode : Option String} {force : Bool}
    (hapart : apart w (.migrateStarts id d toNode force) = true) (hnew : w.migrations.get id = none) :
    Inv (w.setMigration id (startedMigration d toNode force)) := by
  unfold startedMigration
  cases hstart : MigrateJob.start toNode force with
  | error e => exact .inl (doomed_setMigration (c := none) rfl)
  | ok job =>
      obtain ⟨hfree, hhost⟩ := Bool.and_eq_true_iff.mp hapart
      have hjob : toNode = some job.toNode := by
        unfold MigrateJob.start at hstart
        split at hstart
        · split_ifs at hstart
          cases hstart
          rfl
        · cases hstart
      simp only [hjob, Option.all_some, Bool.and_eq_true, decide_eq_true_eq, List.all_eq_true] at hhost
      refine .inr (h.setMigration (c := none) (unlocked_of_noJoin hfree)
        (fun _ => ⟨hhost.1, by simp [readPeers], by simp, by simp [queued], by simp [queued]⟩) ?_
        ⟨?_, ?_⟩ fun hidle => h.host fun y hy => ?_)
      · rintro y ⟨⟨other, hy⟩, hrunning⟩ -
        have hsame := hhost.2 (other, y) (OrderedMap.mem_entries.mpr hy)
        simpa [hrunning] using hsame
      · rintro _ p queue watched ⟨⟩ hpc
        cases hpc
      · intro c hc happlied
        obtain ⟨slot, _, _, _, hslot, -⟩ := (h.syncs id).awaited c hc happlied
        rw [hnew] at hslot
        cases hslot
      · obtain ⟨⟨other, hother⟩, hrunning⟩ := hy
        refine hidle y ⟨⟨other, ?_⟩, hrunning⟩
        rw [World.setMigration, OrderedMap.get_put_of_ne]
        · exact hother
        · rintro rfl
          rw [hnew] at hother
          cases hother

theorem good_migrates (h : Good w) (hslot : w.migrations.get id = some slot)
    (hrunning : slot.thread.pc.running = true)
    (hfit : t.pc.running = true →
      MigrationFit w.base.etcd.kv w.localIp w.files { slot with thread := t })
    (hsync : SyncFit (some { slot with thread := t }) (c.or (w.syncs id)) w.files)
    (hhost : (∀ y, migrating (w.setMigration id { slot with thread := t }) y →
      queued y.thread.pc = none) →
        ∃ value, Agreed w.base.etcd.kv w.base.joins w.files PULSAR_HOST value) :
    Good ((w.setMigration id { slot with thread := t }).sent id c) :=
  h.setMigration (h.jobsApart (.inr ⟨slot, ⟨id, hslot⟩, hrunning⟩)) hfit
    (fun y hy _ => h.oneHost y slot hy ⟨⟨id, hslot⟩, hrunning⟩) hsync hhost

/-- A migration that has sent nothing waits for no answer. -/
theorem unawaited (h : Good w) (hslot : w.migrations.get id = some slot)
    (hbefore : queued slot.thread.pc = none) : ∀ c, w.syncs id = some c → c.applied = true := by
  intro c hc
  by_contra happlied
  obtain ⟨slot', p, queue, watched, hslot', hpc, -⟩ :=
    (h.syncs id).awaited c hc (by simpa using happlied)
  cases hslot.symm.trans hslot'
  rw [hpc] at hbefore
  cases hbefore

/-- A step before the apply. -/
theorem good_unsent (h : Good w) (hslot : w.migrations.get id = some slot)
    (hrunning : slot.thread.pc.running = true) (hbefore : queued slot.thread.pc = none)
    (hafter : queued t.pc = none)
    (hread : ∀ peers, readPeers t.pc = some peers → peers = contents w.base.etcd.kv)
    (hlocated : ∀ peers targetIp old oldIp, t.pc = .probing peers targetIp old oldIp →
      ipOrEmpty (peers.get slot.job.toNode) = .ok (some targetIp) ∧
        ipOrEmpty (peers.get old) = .ok oldIp) :
    Good (w.setMigration id { slot with thread := t }) := by
  have hplain := (h.migrations slot ⟨⟨id, hslot⟩, hrunning⟩).plain
  refine good_migrates (c := none) h hslot hrunning
    (fun _ => ⟨hplain, hread, hlocated, by simp [hafter], by simp [hafter]⟩) ⟨?_, ?_⟩
    fun hidle => h.host fun y hy => ?_
  · rintro _ p queue watched ⟨⟩ hpc
    rw [hpc] at hafter
    cases hafter
  · intro c hc happlied
    exact absurd (unawaited h hslot hbefore c hc) (by simp [happlied])
  · obtain ⟨⟨other, hother⟩, hrunning'⟩ := hy
    by_cases hid : id = other
    · subst hid
      cases hslot.symm.trans hother
      exact hbefore
    · exact hidle y ⟨⟨other, (OrderedMap.get_put_of_ne _ _ hid).trans hother⟩, hrunning'⟩

/-- A step of the apply, whose queue has every file that still has to be written. -/
theorem good_apply (h : Good w) (hslot : w.migrations.get id = some slot)
    (hrunning : slot.thread.pc.running = true) {queue : List (String × String)}
    (hqueued : queued t.pc = some queue) (hpeers : ∀ p ∈ queue, IsPeer w.base.etcd.kv p.2)
    (hcovers : ∀ ip, IsPeer w.base.etcd.kv ip →
      (∃ p ∈ queue, p.2 = ip) ∨ Sets PULSAR_HOST (some slot.job.toNode) (w.files ip))
    (hsync : SyncFit (some { slot with thread := t }) (c.or (w.syncs id)) w.files) :
    Good ((w.setMigration id { slot with thread := t }).sent id c) := by
  have hplain := (h.migrations slot ⟨⟨id, hslot⟩, hrunning⟩).plain
  have hnew : t.pc.running = true := by
    cases hpc : t.pc with
    | done | raised e =>
        rw [hpc] at hqueued
        cases hqueued
    | _ => rfl
  refine good_migrates h hslot hrunning (fun _ => ⟨hplain, ?_, ?_, ?_, ?_⟩) hsync fun hidle => ?_
  · intro peers hread
    cases hpc : t.pc <;> simp_all [queued, readPeers]
  · intro peers targetIp old oldIp hpc
    rw [hpc] at hqueued
    cases hqueued
  · intro queue' hqueue'
    cases hqueued.symm.trans hqueue'
    exact hpeers
  · intro queue' hqueue'
    cases hqueued.symm.trans hqueue'
    exact hcovers
  · have hnone := hidle _ (migrating_new hnew)
    rw [hqueued] at hnone
    cases hnone

theorem fit_of_get (h : Good w) (hslot : w.migrations.get id = some slot) {pc : MigratePc}
    (hpc : slot.thread.pc = pc) (hrunning : pc.running = true) :
    slot.thread.pc.running = true ∧ MigrationFit w.base.etcd.kv w.localIp w.files slot :=
  ⟨hpc ▸ hrunning, h.migrations slot ⟨⟨id, hslot⟩, hpc ▸ hrunning⟩⟩

theorem good_look (h : Good w) (hslot : w.migrations.get id = some slot)
    (hpc : slot.thread.pc = .looking) :
    Good (w.setMigration id { slot with thread := ⟨.reading, 0⟩ }) := by
  obtain ⟨hrunning, -⟩ := fit_of_get h hslot hpc rfl
  exact good_unsent h hslot hrunning (by rw [hpc]; rfl) rfl (by simp [readPeers]) (by simp)

theorem good_locate (h : Good w) (hslot : w.migrations.get id = some slot) {peers : Mirror}
    (hpc : slot.thread.pc = .locating peers) {own : Lines}
    (hfine : ∀ e, slot.job.located own peers ≠ .raised e) :
    Good (w.setMigration id { slot with thread := ⟨slot.job.located own peers, 0⟩ }) := by
  obtain ⟨hrunning, -, hread, -⟩ := fit_of_get h hslot hpc rfl
  rcases located_cases slot.job own peers with
    ⟨e, he⟩ | hdone | ⟨targetIp, host, oldIp, hprobing, htarget, hhost⟩
  · exact absurd he (hfine e)
  · rw [hdone]
    exact good_unsent h hslot hrunning (by rw [hpc]; rfl) rfl (by simp [readPeers]) (by simp)
  · rw [hprobing]
    refine good_unsent h hslot hrunning (by rw [hpc]; rfl) rfl ?_ ?_
    · rintro _ ⟨⟩
      exact hread peers (by rw [hpc]; rfl)
    · rintro _ _ _ _ ⟨⟩
      exact ⟨htarget, hhost⟩

theorem good_probe (h : Good w) (hslot : w.migrations.get id = some slot) {peers : Mirror}
    {targetIp old : String} {oldIp : Option String}
    (hpc : slot.thread.pc = .probing peers targetIp old oldIp) {net : MigratePulsar.Network}
    (hkeeps : leavesOut slot net = false)
    (hfine : ∀ e, slot.job.probed net peers targetIp old oldIp ≠ .raised e) :
    Good (w.setMigration id
      { slot with thread := ⟨slot.job.probed net peers targetIp old oldIp, 0⟩ }) := by
  obtain ⟨hrunning, -, hread, hlocated, -⟩ := fit_of_get h hslot hpc rfl
  obtain rfl := hread peers (by rw [hpc]; rfl)
  obtain ⟨htarget, hhost⟩ := hlocated _ _ _ _ hpc
  rcases probed_cases hpc hkeeps htarget hhost with
    ⟨e, he⟩ | ⟨queue, watched, happlying, hpeers, hcovers⟩
  · exact absurd he (hfine e)
  · rw [happlying]
    refine good_apply (c := none) h hslot hrunning rfl hpeers
      (fun ip hip => .inl (hcovers ip hip)) ⟨?_, fun c hc happlied => ?_⟩
    · rintro _ p queue watched ⟨⟩ hsyncing
      cases hsyncing
    · exact absurd (unawaited h hslot (by rw [hpc]; rfl) c hc) (by simp [happlied])

theorem good_send (h : Good w) (hslot : w.migrations.get id = some slot) {p : String × String}
    {queue watched : List (String × String)} (hpc : slot.thread.pc = .applying (p :: queue) watched) :
    Good ((w.setMigration id { slot with thread := ⟨.syncing p queue watched, 0⟩ }).sent id
      (sends slot .send)) := by
  obtain ⟨hrunning, -, -, -, hpeers, hcovers⟩ := fit_of_get h hslot hpc rfl
  have hsends : sends slot .send = some ⟨p.2, slot.job.toNode, false⟩ := by simp only [sends, hpc]
  rw [hsends]
  refine good_apply h hslot hrunning rfl (hpeers _ (by rw [hpc]; rfl))
    (hcovers _ (by rw [hpc]; rfl)) ⟨?_, ?_⟩
  · rintro _ _ _ _ ⟨⟩ ⟨⟩
    exact ⟨_, rfl, rfl, rfl, fun happlied => by cases happlied⟩
  · rintro c ⟨⟩ -
    exact ⟨_, p, queue, watched, rfl, rfl, rfl, rfl⟩

theorem good_answer (h : Good w) (hslot : w.migrations.get id = some slot) {p : String × String}
    {queue watched : List (String × String)} (hpc : slot.thread.pc = .syncing p queue watched)
    (hanswers : answers w id slot (.answer none) = true) :
    Good (w.setMigration id { slot with thread := ⟨.applying queue watched, 0⟩ }) := by
  obtain ⟨hrunning, -, -, -, hpeers, hcovers⟩ := fit_of_get h hslot hpc rfl
  obtain ⟨c, hc, -, -, hdone⟩ := (h.syncs id).sent slot p queue watched hslot hpc
  simp only [answers, hc, Option.any_some] at hanswers
  have hqueued : queued slot.thread.pc = some (p :: queue) := by
    rw [hpc]
    rfl
  refine good_apply (c := none) h hslot hrunning rfl
    (fun q hq => hpeers _ hqueued q (List.mem_cons_of_mem p hq)) (fun ip hip => ?_) ⟨?_, ?_⟩
  · rcases hcovers _ hqueued ip hip with ⟨q, hq, rfl⟩ | hsets
    · rcases List.mem_cons.mp hq with rfl | hq
      · exact .inr (hdone hanswers)
      · exact .inl ⟨q, hq, rfl⟩
    · exact .inr hsets
  · rintro _ p queue watched ⟨⟩ hsyncing
    cases hsyncing
  · intro c' hc' happlied
    cases hc.symm.trans hc'
    rw [hanswers] at happlied
    cases happlied

theorem good_verified (h : Good w) (hslot : w.migrations.get id = some slot)
    {watched : List (String × String)} (hpc : slot.thread.pc = .applying [] watched) :
    Good (w.setMigration id { slot with thread := ⟨.done, 0⟩ }) := by
  obtain ⟨hrunning, -, -, -, -, hcovers⟩ := fit_of_get h hslot hpc rfl
  have hall : ∀ ip, IsPeer w.base.etcd.kv ip →
      Sets PULSAR_HOST (some slot.job.toNode) (w.files ip) := by
    intro ip hip
    rcases hcovers [] (by rw [hpc]; rfl) ip hip with ⟨p, hp, -⟩ | hsets
    · cases hp
    · exact hsets
  refine good_migrates (c := none) h hslot hrunning (fun hnot => by cases hnot)
    ⟨?_, fun c hc happlied => ?_⟩
    fun _ => ⟨_, agreed_of_all (h.jobsApart (.inr ⟨slot, ⟨id, hslot⟩, hrunning⟩)) hall⟩
  · rintro _ p queue watched ⟨⟩ hsyncing
    cases hsyncing
  · obtain ⟨slot', p, queue, watched', hslot', hsyncing, -⟩ := (h.syncs id).awaited c hc happlied
    cases hslot.symm.trans hslot'
    cases hpc.symm.trans hsyncing

/-- Every step of a migration outside etcd. -/
theorem inv_migrate (h : Good w) {i : MigrateJob.Input} {pc : MigratePc}
    (hapart : apart w (.migrate id i) = true) (hslot : w.migrations.get id = some slot)
    (hanswers : answers w id slot i = true)
    (hpc : slot.job.proceed (w.localIp slot.daemon) w.files slot.thread.pc i = some pc) :
    Inv ((w.setMigration id { slot with thread := ⟨pc, 0⟩ }).sent id (sends slot i)) := by
  by_cases hraised : ∃ e, pc = .raised e
  · obtain ⟨e, rfl⟩ := hraised
    exact .inl (doomed_setMigration rfl)
  have hfine : ∀ e, pc ≠ .raised e := fun e he => hraised ⟨e, he⟩
  right
  generalize hold : slot.thread.pc = old at hpc
  unfold MigrateJob.proceed at hpc
  split at hpc
  · next isLeader =>
      rw [Option.some.injEq] at hpc
      rcases looked_cases isLeader (w.files (w.localIp slot.daemon)) with ⟨e, he⟩ | hreading
      · exact absurd (hpc.symm.trans he) (hfine e)
      · rw [← hpc, hreading]
        exact good_look h hslot hold
  · rw [Option.some.injEq] at hpc
    subst hpc
    exact good_locate h hslot hold hfine
  · rw [Option.some.injEq] at hpc
    subst hpc
    simp only [apart, hslot, Option.all_some, Bool.not_eq_true'] at hapart
    exact good_probe h hslot hold hapart hfine
  · rw [Option.some.injEq] at hpc
    subst hpc
    exact good_send h hslot hold
  · rw [Option.some.injEq] at hpc
    exact absurd hpc.symm (hfine _)
  · rw [Option.some.injEq] at hpc
    subst hpc
    exact good_answer h hslot hold hanswers
  · rw [Option.some.injEq] at hpc
    split_ifs at hpc
    · exact absurd hpc.symm (hfine _)
    · subst hpc
      exact good_verified h hslot hold
  · cases hpc

/-- Every attempt of a migration to read the topology. -/
theorem inv_migrateAttempt (h : Good w) {a : Attempt} {s : Etcd}
    (hslot : w.migrations.get id = some slot)
    (hattempt : MigrateJob.client.attempt 0 w.base.etcd slot.thread a = some (s, t)) :
    Inv (w.setMigration id { slot with thread := t }) := by
  obtain ⟨r, hr, -, hnext⟩ := Client.attempt_cases _ hattempt
  cases hpc : slot.thread.pc with
  | reading =>
      obtain ⟨hrunning, -⟩ := fit_of_get h hslot hpc rfl
      rw [hpc] at hr hnext
      cases hr
      have hbefore : queued slot.thread.pc = none := by
        rw [hpc]
        rfl
      rcases hnext with hsame | ⟨e, he, -⟩ | ⟨y, -, hy, hlocating⟩
      · exact .inr (good_unsent h hslot hrunning hbefore (by rw [hsame]; rfl)
          (by simp [hsame, readPeers]) (by simp [hsame]))
      · exact .inl (doomed_setMigration (c := none) he)
      · cases hy
        have hread : t.pc = .locating (contents w.base.etcd.kv) := hlocating
        exact .inr (good_unsent h hslot hrunning hbefore (by rw [hread]; rfl)
          (by simp [hread, readPeers, eq_comm]) (by simp [hread]))
  | _ =>
      rw [hpc] at hr
      cases hr

/-- A peer applies the change that a migration asks for. -/
theorem good_synced (h : Good w) {c : SyncCall} (hc : w.syncs id = some c) (happlied : c.applied = false) :
    Good ((w.upsert PULSAR_HOST c.host c.ip).setSync id { c with applied := true }) := by
  obtain ⟨slot, p, queue, watched, hslot, hpc, hip, hhost⟩ := (h.syncs id).awaited c hc happlied
  obtain ⟨hrunning, hplain, -, -, hpeers, -⟩ := fit_of_get h hslot hpc rfl
  have hpeer : IsPeer w.base.etcd.kv c.ip :=
    hip ▸ hpeers (p :: queue) (by rw [hpc]; rfl) p List.mem_cons_self
  obtain ⟨h', hwritten⟩ := h.write host_mem (hhost ▸ hplain) hpeer (fun heq => absurd heq (by decide))
    (fun _ => ⟨slot, ⟨⟨id, hslot⟩, hrunning⟩, by simp [hpc, queued], hhost.symm⟩)
  refine h'.setSync ⟨?_, fun c' hc' hnot => ?_⟩
  · intro slot' p' queue' watched' hslot' hpc'
    cases hslot.symm.trans hslot'
    cases hpc.symm.trans hpc'
    exact ⟨_, rfl, hip, hhost, fun _ => hhost ▸ hip ▸ hwritten⟩
  · cases hc'
    cases hnot

end Migrations

/-! ## Every step -/

/-- A daemon that is recreated keeps its name and its ip. -/
theorem good_recreate (h : Good w) (d : ℕ) (token : String) :
    Good { w with config := Function.update w.config d { w.config d with clusterToken := token } } := by
  have hsame : ∀ e, (Function.update w.config d { w.config d with clusterToken := token } e).localIp =
        (w.config e).localIp ∧
      (Function.update w.config d { w.config d with clusterToken := token } e).nodeName =
        (w.config e).nodeName := by
    intro e
    by_cases hde : e = d
    · subst hde
      rw [Function.update_self]
      exact ⟨rfl, rfl⟩
    · rw [Function.update_of_ne hde]
      exact ⟨rfl, rfl⟩
  have hlocal : World.localIp
      { w with config := Function.update w.config d { w.config d with clusterToken := token } } =
        w.localIp := funext fun e => (hsame e).1
  exact {
    bare := h.bare
    tidy := h.tidy
    answered := h.answered
    syncs := h.syncs
    jobsApart := h.jobsApart
    oneToken := h.oneToken
    oneHost := h.oneHost
    token := h.token
    host := h.host
    rotations := by
      rw [hlocal]
      exact h.rotations
    handlings := by
      rw [hlocal]
      exact h.handlings
    migrations := by
      rw [hlocal]
      exact h.migrations
    joins := by
      intro other slot hslot
      obtain ⟨hvalid, hbare, hcreated, hhosted⟩ := h.joins other slot hslot
      refine ⟨hvalid, hbare, hcreated, fun hlock => ?_⟩
      dsimp only
      rw [registered, (hsame slot.daemon).1, (hsame slot.daemon).2]
      exact hhosted hlock }

theorem doomed_of_rotation (h : Doomed w) {job : String} {x : Worker}
    (hkeep : ∀ y e, w.rotations.get job = some y → y.pc ≠ .ended (some e)) :
    Doomed (w.setRotation job x) := by
  rcases h with ⟨other, y, e, hy, hpc⟩ | h | h
  · refine .inl ⟨other, y, e, ?_, hpc⟩
    rw [World.setRotation, OrderedMap.get_put_of_ne]
    · exact hy
    · rintro rfl
      exact hkeep y e hy hpc
  · exact .inr (.inl h)
  · exact .inr (.inr h)

theorem doomed_of_migration (h : Doomed w) {slot : MigrationSlot} {c : Option SyncCall}
    (hkeep : ∀ y e, w.migrations.get id = some y → y.thread.pc ≠ .raised e) :
    Doomed ((w.setMigration id slot).sent id c) := by
  obtain ⟨syncs, hsent, -, -⟩ := sent_eq (w.setMigration id slot) id c
  rw [hsent]
  rcases h with h | ⟨other, y, e, hy, hpc⟩ | h
  · exact .inl h
  · refine .inr (.inl ⟨other, y, e, ?_, hpc⟩)
    dsimp only [World.setMigration]
    rw [OrderedMap.get_put_of_ne]
    · exact hy
    · rintro rfl
      exact hkeep y e hy hpc
  · exact .inr (.inr h)

theorem unfailed_of_working {x : Worker} (h : working x = true) : ∀ e, x.pc ≠ .ended (some e) := by
  intro e he
  rw [working, he] at h
  cases h

/-- A failed job or join stays failed. -/
theorem doomed_step {act : Act} (h : Doomed w) (hstep : Steps w act v) : Doomed v := by
  cases hstep with
  | cluster hbelongs hcluster => exact doomed_cluster h hbelongs hcluster
  | recreate => exact h
  | rotateStarts hnew _ =>
      refine doomed_of_rotation h fun y e hy => ?_
      rw [hnew] at hy
      cases hy
  | @rotateWrites job i x r hx hproceed _ =>
      refine doomed_of_rotation (w := w.upsert _ _ _) h fun y e hy => ?_
      cases hx.symm.trans hy
      exact unfailed_of_working (working_of_moved (moved_of_proceed hproceed)) e
  | rotate hx _ hproceed _ =>
      refine doomed_of_rotation h fun y e hy => ?_
      cases hx.symm.trans hy
      exact unfailed_of_working (working_of_moved (moved_of_proceed hproceed)) e
  | handle | handledWrites | handled | synced => exact h
  | replies _ hx _ hproceed =>
      refine doomed_of_rotation h fun y e hy => ?_
      cases hx.symm.trans hy
      exact unfailed_of_working (working_of_moved (moved_of_proceed hproceed)) e
  | migrateStarts hnew =>
      refine doomed_of_migration (c := none) h fun y e hy => ?_
      rw [hnew] at hy
      cases hy
  | migrate hslot _ hpc =>
      refine doomed_of_migration h fun y e hy hraised => ?_
      cases hslot.symm.trans hy
      rw [hraised] at hpc
      cases hpc
  | migrateAttempt hslot hattempt =>
      refine doomed_of_migration (c := none) h fun y e hy hraised => ?_
      cases hslot.symm.trans hy
      obtain ⟨r, hr, -⟩ := Client.attempt_cases _ hattempt
      rw [hraised] at hr
      cases hr

/-- Every step that keeps the jobs apart keeps the invariant. -/
theorem inv_step {act : Act} (h : Inv w) (haccurate : accurate w act = true)
    (hapart : apart w act = true) (hstep : Steps w act v) : Inv v := by
  by_cases hdoomed : Doomed w
  · exact .inl (doomed_step hdoomed hstep)
  replace h := h.resolve_left hdoomed
  cases hstep with
  | cluster hbelongs hcluster => exact inv_cluster h hdoomed haccurate hapart hbelongs hcluster
  | recreate => exact .inr (good_recreate h _ _)
  | rotateStarts hnew hr => exact inv_rotateStarts h haccurate hapart hnew hr
  | rotateWrites hx hproceed hwrites =>
      exact inv_rotateWrites h hx (moved_of_proceed hproceed) hwrites
  | rotate hx hreport hproceed hwrites =>
      exact inv_rotate h hx (moved_of_proceed hproceed) hreport hwrites
  | handle hx hnew hsent => exact .inr (good_handle h hx hnew hsent)
  | handledWrites hz hnamed hproceed _ => exact .inr (good_handledWrites h hz hnamed hproceed)
  | handled hz hnamed hproceed hwrites =>
      refine .inr (good_handler h hz hnamed hproceed fun hwritten => ?_)
      rw [hwrites] at hwritten
      cases hwritten
  | replies hz hx hended hproceed => exact inv_replies h hz hx hended (moved_of_proceed hproceed)
  | migrateStarts hnew => exact inv_migrateStarts h hapart hnew
  | migrate hslot hanswers hpc => exact inv_migrate h hapart hslot hanswers hpc
  | migrateAttempt hslot hattempt => exact inv_migrateAttempt h hslot hattempt
  | synced hcall happlied => exact .inr (good_synced h hcall happlied)

/-! ## Whole runs -/

/-- Before any job and any join: the files of the peers agree, and each of them
sets the two keys at most once, to a plain word. -/
structure Settled (kv : OrderedMap String String) (files : Files) : Prop where
  bare : ∀ name info, entryOf kv name = some info → Bare name ∧ ∀ ip, ipOf info = some ip → Bare ip
  token : ∃ value, ∀ ip, IsPeer kv ip → Sets CLUSTER_TOKEN value (files ip)
  host : ∃ value, ∀ ip, IsPeer kv ip → Sets PULSAR_HOST value (files ip)

def firstToken : String := "11111111111111111111111111111111"

def secondToken : String := "22222222222222222222222222222222"

def pairKv : OrderedMap String String :=
  OrderedMap.empty.putAll [
    (TOPOLOGY_PREFIX ++ "node-1", JsonText.dumps (.obj [("ip", .str "10.0.0.1")])),
    (TOPOLOGY_PREFIX ++ "node-2", JsonText.dumps (.obj [("ip", .str "10.0.0.2")]))]

/-- `node-1` leads; its daemon is the first, the one of `node-2` the second. -/
def pairBase : Cluster.World :=
  { Cluster.fresh ⟨pairKv, []⟩ (fun d => d = 1) bootConfig with bootstrapLive := true }

def pairConfig (d : ℕ) : DaemonConfig :=
  if d = 2 then { bootConfig with nodeName := "node-2", localIp := "10.0.0.2" } else bootConfig

/-- Pulsar runs on `node-2`. -/
def pairFiles : Files := fun _ =>
  ["NODE_NAME=n", "MQ_TYPE=pulsar", CLUSTER_TOKEN.line "token", PULSAR_HOST.line "node-2"]

def pair : World := start pairBase pairConfig pairFiles

/-- A migration to the leader up to its preflight. -/
def migrateLooks (force : Bool) (healthy : String × String → Bool) : List Act :=
  [.migrateStarts 1 1 (some "node-1") force, .migrate 1 (.look true), .migrateAttempt 1 .answered,
    .migrate 1 .locate, .migrate 1 (.probe ⟨healthy, fun _ => .answered .works, fun _ => true⟩)]

/-- The next request of the migration, which the daemon handles. -/
def migrates (d : ℕ) : List Act := [.migrate 1 .send, .synced 1 d, .migrate 1 (.answer none)]

def migrateVerifies : Act :=
  .migrate 1 (.verify ⟨fun _ => true, fun _ => .answered .works, fun _ => true⟩)

/-- A migration off a host that does not answer. -/
def forced : List Act :=
  migrateLooks true (fun p => p.1 ≠ "node-2") ++ migrates 1 ++ [migrateVerifies]

end MilvusOnprem.SettingsAgreement
