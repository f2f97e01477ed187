import MilvusOnprem.UpgradeAnchor
import MilvusOnprem.GuardedRuns

/-!
# Renders of the handlers while the version changes

The tags of the peers and the anchor `/cluster/milvus_version`, with any number of
upgrades, joins, starting daemons and renders under way. Of a `cluster.env` only
the lines of the tag are kept. Init, a join and the upgrade write them, and nobody
else.

What takes time takes several steps. A request waits for the handler lock of the
peer, and may be served after the leader has given it up. A joiner writes its file
when it has the answer of the leader. A starting daemon reads its file before it
puts the anchor, and a render sources the file before it probes the anchor. The
render of an upgrade itself is internal and skips the guard.

For the statements the peers with a file are listed, and every tag carries whether
an upgrade has rewritten it since the anchor was last put at the end of an upgrade.
-/
namespace MilvusOnprem.VersionGuard

open PythonText OrderedPeers EnvFile VersionUpgrade ImageTag UpgradeAnchor GuardedRuns
open MigratePulsar (Files)

/-- The lines of a file about the tag, and whether they are rewritten. -/
structure TagFile where
  lines : Lines
  rewritten : Bool
deriving DecidableEq, Repr

/-- A tag that a render has read. -/
structure Tag where
  text : String
  rewritten : Bool
deriving DecidableEq, Repr

/-- A request to `/upgrade-self`, or the leader's own upgrade. -/
structure Request where
  ip : String
  target : String
  job : ℕ
deriving DecidableEq, Repr

inductive Stage where
  | idle
  | sent
  | edited
  | over
deriving DecidableEq, Repr

/-- An upgrade job with the daemons it has not yet finished. -/
structure Rollout where
  target : String
  job : ℕ
  queue : List String
  stage : Stage
deriving DecidableEq, Repr

structure World where
  file : String → Option TagFile
  peers : List String
  anchor : Option String
  rollouts : List Rollout
  requests : List Request
  bodies : List TagFile
  starting : List String
  renders : List (String × Tag)
  refused : List String

inductive Act where
  | begin (j : Job)
  | send (i : ℕ)
  | edit (k : ℕ)
  | answer (i : ℕ)
  | abort (i : ℕ)
  | finish (i : ℕ) (put : Put)
  | issue (leader : String)
  | join (k : ℕ) (ip : String)
  | boot (ip : String)
  | register (k : ℕ)
  | load (ip : String)
  | probe (k : ℕ) (distributed etcdRuns answered : Bool)

def World.files (w : World) : Files := fun ip =>
  match w.file ip with
  | some f => f.lines
  | none => []

/-- The lines of the tag in the file that is issued to a joiner. -/
def issued (lines : Lines) : Lines :=
  match copiedTag lines with
  | some tag => [MILVUS_IMAGE_TAG.line tag]
  | none => []

/-- The job whose request was served goes on. -/
def Rollout.reached (job : ℕ) (r : Rollout) : Rollout :=
  if r.job = job ∧ r.stage = .sent then { r with stage := .edited } else r

/-- The tags once the anchor is put. -/
def settled (file : String → Option TagFile) : String → Option TagFile := fun ip =>
  (file ip).map fun f => { f with rewritten := false }

/-- What the handler's render knows of the cluster. -/
def World.probe (w : World) (distributed etcdRuns answered : Bool) : Probe :=
  ⟨distributed, false, etcdRuns, if answered then anchorOutput w.anchor else []⟩

def step (w : World) : Act → Option World
  | .begin j =>
      match (j.upgrade w.files).check, sortedPeers j.mirror.entries with
      | .ok target, .ok sorted =>
          some { w with rollouts := w.rollouts ++ [⟨target, w.rollouts.length,
            ((j.upgrade w.files).leaderFirst sorted).map j.daemonIp, .idle⟩] }
      | _, _ => none
  | .send i =>
      match w.rollouts[i]? with
      | some ⟨target, job, ip :: queue, .idle⟩ =>
          some { w with
            rollouts := w.rollouts.set i ⟨target, job, ip :: queue, .sent⟩
            requests := w.requests ++ [⟨ip, target, job⟩] }
      | _ => none
  | .edit k =>
      match w.requests[k]? with
      | some q =>
          match w.file q.ip with
          | some f =>
              -- `sed` fails on a target with a line break
              if '\n' ∈ q.target.toList then none
              else
                some { w with
                  file := Function.update w.file q.ip (some ⟨sedTag q.target f.lines, true⟩)
                  rollouts := w.rollouts.map (Rollout.reached q.job)
                  requests := w.requests.eraseIdx k }
          | none => none
      | none => none
  | .answer i =>
      match w.rollouts[i]? with
      | some ⟨target, job, _ :: queue, .edited⟩ =>
          some { w with rollouts := w.rollouts.set i ⟨target, job, queue, .idle⟩ }
      | _ => none
  | .abort i =>
      match w.rollouts[i]? with
      | some r => some { w with rollouts := w.rollouts.set i { r with stage := .over } }
      | none => none
  | .finish i put =>
      match w.rollouts[i]? with
      | some ⟨target, job, [], .idle⟩ =>
          let rollouts := w.rollouts.set i ⟨target, job, [], .over⟩
          if put.lands then
            some { w with rollouts := rollouts, anchor := some target, file := settled w.file }
          else some { w with rollouts := rollouts }
      | _ => none
  | .issue leader =>
      match w.file leader with
      | some f => some { w with bodies := w.bodies ++ [⟨issued f.lines, f.rewritten⟩] }
      | none => none
  | .join k ip =>
      match w.bodies[k]? with
      | some f =>
          some { w with
            file := Function.update w.file ip (some f)
            peers := ip :: w.peers
            bodies := w.bodies.eraseIdx k }
      | none => none
  | .boot ip =>
      match w.file ip with
      | some f =>
          match registeredTag f.lines with
          | some tag => some { w with starting := w.starting ++ [tag] }
          | none => none
      | none => none
  -- `put_if_absent`
  | .register k =>
      match w.starting[k]? with
      | some tag =>
          some { w with starting := w.starting.eraseIdx k, anchor := w.anchor.or (some tag) }
      | none => none
  | .load ip =>
      match w.file ip with
      | some f => some { w with renders := w.renders ++ [(ip, ⟨imageTag f.lines, f.rewritten⟩)] }
      | none => none
  | .probe k distributed etcdRuns answered =>
      match w.renders[k]? with
      | some (ip, tag) =>
          some { w with
            renders := w.renders.eraseIdx k
            refused :=
              if refuses (w.probe distributed etcdRuns answered) tag.text then w.refused ++ [ip]
              else w.refused }
      | none => none

/-- The bootstrap peer after init. -/
def start (ip tag : String) : World where
  file := Function.update (fun _ => none) ip (some ⟨[MILVUS_IMAGE_TAG.line tag], false⟩)
  peers := [ip]
  anchor := none
  rollouts := []
  requests := []
  bodies := []
  starting := []
  renders := []
  refused := []

/-- No upgrade is in progress. -/
def World.calm (w : World) : Bool := w.rollouts.all fun r => r.stage = .over

/-- The daemons that an upgrade goes through. -/
def World.queueOf (w : World) (j : Job) : List String :=
  match sortedPeers j.mirror.entries with
  | .ok sorted => ((j.upgrade w.files).leaderFirst sorted).map j.daemonIp
  | .error _ => []

/-- An upgrade starts while the anchor is there, no other upgrade is in progress or
has a request left, no join is under way, and its list has every peer. No join is
answered during an upgrade, and no render waits for its probe when the anchor is
put. A render that gets the anchor has read a tag that is not rewritten. -/
def orderly (w : World) : Act → Bool
  | .begin j =>
      w.anchor.isSome && w.calm && w.requests = [] && w.bodies = [] &&
        w.peers.all fun ip => ip ∈ w.queueOf j
  | .issue _ => w.calm
  | .finish _ put => !put.lands || w.renders = []
  | .probe k distributed etcdRuns answered =>
      !(distributed && etcdRuns && answered) || (w.renders[k]?).all fun r => !r.2.rewritten
  | _ => true

/-! ## What a step can do -/

inductive Steps (w : World) : Act → World → Prop
  | begin {j target} : isVersion target = true → Steps w (.begin j)
      { w with rollouts := w.rollouts ++ [⟨target, w.rollouts.length, w.queueOf j, .idle⟩] }
  | send {i r ip queue} : w.rollouts[i]? = some r → r.queue = ip :: queue → r.stage = .idle →
      Steps w (.send i)
        { w with
          rollouts := w.rollouts.set i { r with stage := .sent }
          requests := w.requests ++ [⟨ip, r.target, r.job⟩] }
  | edit {k q f} : w.requests[k]? = some q → w.file q.ip = some f → '\n' ∉ q.target.toList →
      Steps w (.edit k)
        { w with
          file := Function.update w.file q.ip (some ⟨sedTag q.target f.lines, true⟩)
          rollouts := w.rollouts.map (Rollout.reached q.job)
          requests := w.requests.eraseIdx k }
  | answer {i r ip queue} : w.rollouts[i]? = some r → r.queue = ip :: queue → r.stage = .edited →
      Steps w (.answer i)
        { w with rollouts := w.rollouts.set i { r with queue := queue, stage := .idle } }
  | abort {i r} : w.rollouts[i]? = some r → Steps w (.abort i)
      { w with rollouts := w.rollouts.set i { r with stage := .over } }
  | finish {i put r} : w.rollouts[i]? = some r → r.queue = [] → r.stage = .idle →
      put.lands = true → Steps w (.finish i put)
        { w with
          rollouts := w.rollouts.set i { r with stage := .over }
          anchor := some r.target
          file := settled w.file }
  | fail {i put r} : w.rollouts[i]? = some r → put.lands = false → Steps w (.finish i put)
      { w with rollouts := w.rollouts.set i { r with stage := .over } }
  | issue {leader f} : w.file leader = some f → Steps w (.issue leader)
      { w with bodies := w.bodies ++ [⟨issued f.lines, f.rewritten⟩] }
  | join {k ip f} : f ∈ w.bodies → Steps w (.join k ip)
      { w with
        file := Function.update w.file ip (some f)
        peers := ip :: w.peers
        bodies := w.bodies.eraseIdx k }
  | boot {ip f tag} : w.file ip = some f → registeredTag f.lines = some tag → Steps w (.boot ip)
      { w with starting := w.starting ++ [tag] }
  | register {k tag} : tag ∈ w.starting → Steps w (.register k)
      { w with starting := w.starting.eraseIdx k, anchor := w.anchor.or (some tag) }
  | load {ip f} : w.file ip = some f → Steps w (.load ip)
      { w with renders := w.renders ++ [(ip, ⟨imageTag f.lines, f.rewritten⟩)] }
  | probe {k distributed etcdRuns answered ip tag} : w.renders[k]? = some (ip, tag) →
      Steps w (.probe k distributed etcdRuns answered)
        { w with
          renders := w.renders.eraseIdx k
          refused :=
            if refuses (w.probe distributed etcdRuns answered) tag.text then w.refused ++ [ip]
            else w.refused }

theorem steps_of_step {w v : World} {act : Act} (h : step w act = some v) : Steps w act v := by
  cases act with
  | begin j =>
      simp only [step] at h
      split at h
      · next target sorted hcheck hsorted =>
          cases h
          have hqueue : w.queueOf j = ((j.upgrade w.files).leaderFirst sorted).map j.daemonIp := by
            simp only [World.queueOf, hsorted]
          rw [← hqueue]
          exact .begin (Upgrade.check_ok hcheck).1
      · cases h
  | send i =>
      simp only [step] at h
      split at h
      · next hr =>
          cases h
          exact .send hr rfl rfl
      · cases h
  | edit k =>
      simp only [step] at h
      split at h
      · next q hq =>
          split at h
          · next f hf =>
              split_ifs at h with hline
              cases h
              exact .edit hq hf hline
          · cases h
      · cases h
  | answer i =>
      simp only [step] at h
      split at h
      · next hr =>
          cases h
          exact .answer hr rfl rfl
      · cases h
  | abort i =>
      simp only [step] at h
      split at h
      · next r hr =>
          cases h
          exact .abort hr
      · cases h
  | finish i put =>
      simp only [step] at h
      split at h
      · next hr =>
          split_ifs at h with hput
          · cases h
            exact .finish hr rfl rfl hput
          · cases h
            exact .fail hr (by simpa using hput)
      · cases h
  | issue leader =>
      simp only [step] at h
      split at h
      · next f hf =>
          cases h
          exact .issue hf
      · cases h
  | join k ip =>
      simp only [step] at h
      split at h
      · next f hf =>
          cases h
          exact .join (List.mem_of_getElem? hf)
      · cases h
  | boot ip =>
      simp only [step] at h
      split at h
      · next f hf =>
          split at h
          · next tag htag =>
              cases h
              exact .boot hf htag
          · cases h
      · cases h
  | register k =>
      simp only [step] at h
      split at h
      · next tag htag =>
          cases h
          exact .register (List.mem_of_getElem? htag)
      · cases h
  | load ip =>
      simp only [step] at h
      split at h
      · next f hf =>
          cases h
          exact .load hf
      · cases h
  | probe k distributed etcdRuns answered =>
      simp only [step] at h
      split at h
      · next ip tag htag =>
          cases h
          exact .probe htag
      · cases h

/-! ## What the guard compares -/

/-- What the guard compares of a version. -/
def version (target : String) : List Char := dropFinalNewline target.toList

/-- A version of one line. -/
def OneLine (text : String) : Prop := version text ≠ [] ∧ '\n' ∉ version text

theorem version_of_line {text : String} (h : '\n' ∉ text.toList) : version text = text.toList := by
  rw [version, dropFinalNewline, if_neg fun hl => h (List.mem_of_getLast? hl)]

theorem newline_not_mem {tag : String} (h : IsTag tag) : '\n' ∉ tag.toList := by
  intro hmem
  have hspace := (h.2 _ hmem).2
  revert hspace
  decide

theorem oneLine_of_isTag {tag : String} (h : IsTag tag) : OneLine tag := by
  rw [OneLine, version_of_line (newline_not_mem h)]
  refine ⟨fun hnil => h.1 ?_, newline_not_mem h⟩
  exact String.toList_injective hnil

theorem oneLine_of_isVersion {target : String} (h : isVersion target = true) : OneLine target := by
  obtain ⟨hne, hchars⟩ := isVersion_chars h
  refine ⟨hne, fun hmem => ?_⟩
  rcases hchars _ hmem with hv | hdot | hdigit
  · cases hv
  · cases hdot
  · revert hdigit
    decide

/-- What the guard sees of an anchor of one line, whether a line break ends it or not. -/
theorem clusterTag_anchor {text : String} (h : OneLine text) (d i e : Bool) :
    clusterTag ⟨d, i, e, anchorOutput (some text)⟩ = version text := by
  have hkeep : ∀ c ∈ version text, decide (c ≠ '\n') = true := fun c hc =>
    decide_eq_true fun he => h.2 (he ▸ hc)
  have hsplit : text.toList = version text ∨ text.toList = version text ++ ['\n'] := by
    unfold version dropFinalNewline
    split_ifs with hlast
    · right
      obtain ⟨cs, hcs⟩ := List.getLast?_eq_some_iff.mp hlast
      rw [hcs, List.dropLast_concat]
    · exact .inl rfl
  rcases hsplit with htext | htext
  · rw [clusterTag, anchorOutput, htext, List.takeWhile_append_of_pos hkeep]
    simp
  · rw [clusterTag, anchorOutput, htext, List.append_assoc, List.takeWhile_append_of_pos hkeep]
    simp

/-- The guard does not refuse a tag when it gets no anchor of another version. -/
theorem accepts {w : World} {tag : String} (htag : IsTag tag) {d e a : Bool}
    (hanchor : ∀ anchor, w.anchor = some anchor → OneLine anchor ∧
      ((d && e && a) = true → version anchor = version tag)) :
    refuses (w.probe d e a) tag = false := by
  cases a with
  | false => simp [World.probe, refuses, clusterTag]
  | true =>
      cases ha : w.anchor with
      | none => simp [World.probe, refuses, clusterTag, ha, anchorOutput]
      | some anchor =>
          obtain ⟨hone, hsame⟩ := hanchor anchor ha
          have hseen := clusterTag_anchor hone d false e
          rw [version_of_line (newline_not_mem htag)] at hsame
          cases d <;> cases e <;> simp [World.probe, ha, refuses, hseen, hsame]

/-! ## What holds in every run -/

/-- The one line of the tag, with a version the sourcing of the file reads back. -/
def TagFile.Has (f : TagFile) (tag : String) : Prop :=
  IsTag tag ∧ f.lines = [MILVUS_IMAGE_TAG.line tag]

/-- A tag that is not rewritten is the current one. -/
def TagFile.Ok (current : String) (f : TagFile) : Prop :=
  ∃ tag, f.Has tag ∧ (f.rewritten = false → tag = current)

def Tag.Ok (current : String) (t : Tag) : Prop :=
  IsTag t.text ∧ (t.rewritten = false → t.text = current)

/-- How far an upgrade in progress is: the peers it no longer waits for have its
target, and a request is one of its own. -/
structure Underway (file : String → Option TagFile) (requests : List Request)
    (bodies : List TagFile) (r : Rollout) : Prop where
  bodiless : bodies = []
  own : ∀ q ∈ requests, r.stage = .sent ∧ q.target = r.target ∧ q.job = r.job ∧
    r.queue.head? = some q.ip
  single : requests.length ≤ 1
  edited : r.stage = .edited → ∀ ip f, r.queue.head? = some ip → file ip = some f → f.Has r.target
  done : ∀ ip f, file ip = some f → ip ∈ r.queue ∨ f.Has r.target

/-- At most one upgrade is in progress. -/
def Alone (file : String → Option TagFile) (requests : List Request) (bodies : List TagFile)
    (rollouts : List Rollout) : Prop :=
  ∃ i, ∀ (j : ℕ) (r : Rollout), rollouts[j]? = some r → r.stage ≠ .over →
    j = i ∧ Underway file requests bodies r

/-- `current` is the version of the last anchor an upgrade put, or of the first file. -/
structure Inv (current : String) (w : World) : Prop where
  files : ∀ ip f, w.file ip = some f → f.Ok current ∧ ip ∈ w.peers
  bodies : ∀ f ∈ w.bodies, f.Ok current
  renders : ∀ r ∈ w.renders, r.2.Ok current
  anchor : ∀ a, w.anchor = some a → OneLine a ∧ version a = version current
  starting : ∀ t ∈ w.starting, w.anchor = none → t = current ∧ IsTag t
  rollouts : ∀ r ∈ w.rollouts, isVersion r.target = true
  requests : ∀ q ∈ w.requests, isVersion q.target = true
  early : w.anchor = none → w.rollouts = [] ∧ w.requests = [] ∧
    (∀ ip f, w.file ip = some f → f.rewritten = false) ∧ ∀ f ∈ w.bodies, f.rewritten = false
  alone : Alone w.file w.requests w.bodies w.rollouts
  refused : w.refused = []

theorem files_update {file : String → Option TagFile} {p : String → TagFile → Prop} {ip : String}
    {f : TagFile} (h : ∀ ip f, file ip = some f → p ip f) (hf : p ip f) :
    ∀ ip' f', Function.update file ip (some f) ip' = some f' → p ip' f' := by
  intro ip' f' hf'
  by_cases hip : ip' = ip
  · subst hip
    rw [Function.update_self] at hf'
    cases hf'
    exact hf
  · rw [Function.update_of_ne hip] at hf'
    exact h ip' f' hf'

theorem inv_start (ip : String) {tag : String} (htag : IsTag tag) : Inv tag (start ip tag) := by
  have hfile : ∀ ip' f, (start ip tag).file ip' = some f →
      ip' = ip ∧ f = ⟨[MILVUS_IMAGE_TAG.line tag], false⟩ :=
    files_update (fun _ _ hf => by cases hf) ⟨rfl, rfl⟩
  refine ⟨fun ip' f hf => ?_, nofun, nofun, nofun, nofun, nofun, nofun, fun _ => ?_, ⟨0, nofun⟩, rfl⟩
  · obtain ⟨rfl, rfl⟩ := hfile ip' f hf
    exact ⟨⟨tag, ⟨htag, rfl⟩, fun _ => rfl⟩, List.mem_singleton_self _⟩
  · refine ⟨rfl, rfl, fun ip' f hf => ?_, nofun⟩
    obtain ⟨-, rfl⟩ := hfile ip' f hf
    rfl

/-! ### One upgrade at a time -/

section Progress

variable {file file' : String → Option TagFile} {requests requests' : List Request}
  {bodies bodies' : List TagFile} {rollouts : List Rollout} {r r' : Rollout} {i : ℕ}

theorem alone_of_over (h : ∀ r ∈ rollouts, r.stage = .over) :
    Alone file requests bodies rollouts :=
  ⟨0, fun _ r hr hne => absurd (h r (List.mem_of_getElem? hr)) hne⟩

/-- An upgrade that begins when all others are over. -/
theorem alone_begin (h : ∀ r ∈ rollouts, r.stage = .over) (hnew : Underway file requests bodies r) :
    Alone file requests bodies (rollouts ++ [r]) := by
  refine ⟨rollouts.length, fun j s hs hne => ?_⟩
  rcases Nat.lt_or_ge j rollouts.length with hj | hj
  · rw [List.getElem?_append_left hj] at hs
    exact absurd (h s (List.mem_of_getElem? hs)) hne
  · rw [List.getElem?_append_right hj] at hs
    obtain ⟨hzero, rfl⟩ : j - rollouts.length = 0 ∧ r = s := by
      simpa [List.getElem?_singleton] using hs
    exact ⟨by omega, hnew⟩

theorem Alone.underway (h : Alone file requests bodies rollouts) (hr : rollouts[i]? = some r)
    (hne : r.stage ≠ .over) : Underway file requests bodies r := by
  obtain ⟨k, hk⟩ := h
  exact (hk i r hr hne).2

/-- The upgrade in progress goes on, or is over. -/
theorem Alone.set (h : Alone file requests bodies rollouts) (hr : rollouts[i]? = some r)
    (hne : r.stage ≠ .over) (hnew : r'.stage ≠ .over → Underway file' requests' bodies' r') :
    Alone file' requests' bodies' (rollouts.set i r') := by
  obtain ⟨k, hk⟩ := h
  obtain ⟨rfl, -⟩ := hk i r hr hne
  refine ⟨i, fun j s hs hs' => ?_⟩
  rw [List.getElem?_set] at hs
  split_ifs at hs with hij
  · cases hs
    exact ⟨hij.symm, hnew hs'⟩
  · exact absurd (hk j s hs hs').1 fun hji => hij hji.symm

/-- An upgrade that is over is not in progress. -/
theorem Alone.set_over (h : Alone file requests bodies rollouts) (hover : r'.stage = .over) :
    Alone file requests bodies (rollouts.set i r') := by
  obtain ⟨k, hk⟩ := h
  refine ⟨k, fun j s hs hs' => ?_⟩
  rw [List.getElem?_set] at hs
  split_ifs at hs with hij
  · cases hs
    exact absurd hover hs'
  · exact hk j s hs hs'

/-- While bodies of joins are out, no upgrade is in progress. -/
theorem Alone.over_of_mem (h : Alone file requests bodies rollouts) {f : TagFile}
    (hf : f ∈ bodies) : ∀ r ∈ rollouts, r.stage = .over := by
  intro r hr
  obtain ⟨i, hi⟩ := List.mem_iff_getElem?.mp hr
  by_contra hne
  rw [(h.underway hi hne).bodiless] at hf
  cases hf

/-- An upgrade whose request is served has written the peer's file. -/
theorem Underway.edit {k : ℕ} {q : Request} {f : TagFile} (h : Underway file requests bodies r)
    (hq : requests[k]? = some q) (hf : f.Has q.target) :
    Underway (Function.update file q.ip (some f)) (requests.eraseIdx k) bodies
      (r.reached q.job) := by
  obtain ⟨hstage, htarget, hjob, hhead⟩ := h.own q (List.mem_of_getElem? hq)
  have hempty : requests.eraseIdx k = [] := by
    have hk := (List.getElem?_eq_some_iff.mp hq).1
    have hlength := List.length_eraseIdx_of_lt hk
    have hsingle := h.single
    exact List.eq_nil_of_length_eq_zero (by omega)
  have hreached : r.reached q.job = { r with stage := .edited } := by
    rw [Rollout.reached, if_pos ⟨hjob.symm, hstage⟩]
  rw [hempty, hreached]
  rw [htarget] at hf
  refine ⟨h.bodiless, nofun, Nat.zero_le _, fun _ ip f' hip hf' => ?_, fun ip f' hf' => ?_⟩
  · cases hhead.symm.trans hip
    rw [Function.update_self] at hf'
    cases hf'
    exact hf
  · by_cases hip : ip = q.ip
    · subst hip
      rw [Function.update_self] at hf'
      cases hf'
      exact .inr hf
    · rw [Function.update_of_ne hip] at hf'
      exact h.done ip f' hf'

theorem reached_over {job : ℕ} (h : (r.reached job).stage ≠ .over) : r.stage ≠ .over := by
  intro hover
  refine h ?_
  rw [Rollout.reached, if_neg]
  · exact hover
  · rintro ⟨-, hsent⟩
    cases hover.symm.trans hsent

end Progress

/-! ### The steps -/

/-- A property of a list after one more entry. -/
theorem forall_mem_snoc {α : Type} {p : α → Prop} {l : List α} {a : α} (h : ∀ b ∈ l, p b)
    (ha : p a) : ∀ b ∈ l ++ [a], p b := by
  intro b hb
  rcases List.mem_append.mp hb with hb | hb
  · exact h b hb
  · rw [List.mem_singleton.mp hb]
    exact ha

theorem forall_mem_set {α : Type} {p : α → Prop} {l : List α} {a : α} {i : ℕ} (h : ∀ b ∈ l, p b)
    (ha : p a) : ∀ b ∈ l.set i a, p b := by
  intro b hb
  rcases List.mem_or_eq_of_mem_set hb with hb | hb
  · exact h b hb
  · rw [hb]
    exact ha

section

variable {current : String} {w : World}

/-- Once there is a rollout there is an anchor. -/
theorem Inv.anchored (h : Inv current w) {i : ℕ} {r : Rollout} (hr : w.rollouts[i]? = some r) :
    w.anchor ≠ none := by
  intro hnone
  rw [(h.early hnone).1] at hr
  cases hr

theorem inv_begin (h : Inv current w) {j : Job} {target : String}
    (hversion : isVersion target = true) (hg : orderly w (.begin j) = true) :
    Inv current { w with rollouts := w.rollouts ++ [⟨target, w.rollouts.length, w.queueOf j, .idle⟩] } := by
  simp only [orderly, Bool.and_eq_true, Option.isSome_iff_ne_none, decide_eq_true_eq, World.calm,
    List.all_eq_true] at hg
  obtain ⟨⟨⟨⟨hanchor, hcalm⟩, hrequests⟩, hbodies⟩, hpeers⟩ := hg
  have hnew : Underway w.file w.requests w.bodies ⟨target, w.rollouts.length, w.queueOf j, .idle⟩ := by
    rw [hrequests]
    exact ⟨hbodies, nofun, Nat.zero_le _, nofun, fun ip f hf => .inl (hpeers ip (h.files ip f hf).2)⟩
  exact { h with
    rollouts := forall_mem_snoc h.rollouts hversion
    early := fun hnone => absurd hnone hanchor
    alone := alone_begin hcalm hnew }

theorem inv_send (h : Inv current w) {i : ℕ} {r : Rollout} {ip : String} {queue : List String}
    (hr : w.rollouts[i]? = some r) (hqueue : r.queue = ip :: queue) (hstage : r.stage = .idle) :
    Inv current { w with
      rollouts := w.rollouts.set i { r with stage := .sent }
      requests := w.requests ++ [⟨ip, r.target, r.job⟩] } := by
  have hne : r.stage ≠ .over := by
    rw [hstage]
    nofun
  have hunder := h.alone.underway hr hne
  have hempty : w.requests = [] := List.eq_nil_iff_forall_not_mem.mpr fun q hq => by
    cases hstage.symm.trans (hunder.own q hq).1
  have hversion := h.rollouts r (List.mem_of_getElem? hr)
  refine { h with
    rollouts := forall_mem_set h.rollouts hversion
    requests := forall_mem_snoc h.requests hversion
    early := fun hnone => absurd hnone (h.anchored hr)
    alone := h.alone.set hr hne fun _ => ?_ }
  rw [hempty]
  refine ⟨hunder.bodiless, fun q hq => ?_, le_refl _, nofun, hunder.done⟩
  rw [List.mem_singleton.mp hq]
  exact ⟨rfl, rfl, rfl, by rw [hqueue, List.head?_cons]⟩

theorem inv_edit (h : Inv current w) {k : ℕ} {q : Request} {f : TagFile}
    (hq : w.requests[k]? = some q) (hf : w.file q.ip = some f) (hline : '\n' ∉ q.target.toList) :
    Inv current { w with
      file := Function.update w.file q.ip (some ⟨sedTag q.target f.lines, true⟩)
      rollouts := w.rollouts.map (Rollout.reached q.job)
      requests := w.requests.eraseIdx k } := by
  obtain ⟨⟨tag, htag, -⟩, hpeer⟩ := h.files q.ip f hf
  have hhas : TagFile.Has ⟨sedTag q.target f.lines, true⟩ q.target := by
    refine ⟨isTag_of_isVersion (h.requests q (List.mem_of_getElem? hq)) hline, ?_⟩
    dsimp only
    rw [htag.2, sedTag_line]
  refine { h with
    files := files_update h.files ⟨⟨q.target, hhas, nofun⟩, hpeer⟩
    rollouts := fun r hr => ?_
    requests := fun q' hq' => h.requests q' (List.mem_of_mem_eraseIdx hq')
    early := fun hnone => ?_
    alone := ?_ }
  · obtain ⟨s, hs, rfl⟩ := List.mem_map.mp hr
    unfold Rollout.reached
    split_ifs
    · exact h.rollouts s hs
    · exact h.rollouts s hs
  · have hnone' := (h.early hnone).2.1
    rw [hnone'] at hq
    cases hq
  · obtain ⟨i, hi⟩ := h.alone
    refine ⟨i, fun j r hr hne => ?_⟩
    rw [List.getElem?_map, Option.map_eq_some_iff] at hr
    obtain ⟨s, hs, rfl⟩ := hr
    obtain ⟨hj, hunder⟩ := hi j s hs (reached_over hne)
    exact ⟨hj, hunder.edit hq hhas⟩

theorem inv_answer (h : Inv current w) {i : ℕ} {r : Rollout} {ip : String} {queue : List String}
    (hr : w.rollouts[i]? = some r) (hqueue : r.queue = ip :: queue) (hstage : r.stage = .edited) :
    Inv current { w with rollouts := w.rollouts.set i { r with queue := queue, stage := .idle } } := by
  have hne : r.stage ≠ .over := by
    rw [hstage]
    nofun
  have hunder := h.alone.underway hr hne
  refine { h with
    rollouts := forall_mem_set h.rollouts (h.rollouts r (List.mem_of_getElem? hr))
    early := fun hnone => absurd hnone (h.anchored hr)
    alone := h.alone.set hr hne fun _ => ?_ }
  refine ⟨hunder.bodiless, fun q hq => ?_, hunder.single, nofun, fun ip' f hf => ?_⟩
  · cases hstage.symm.trans (hunder.own q hq).1
  · rcases hunder.done ip' f hf with hmem | hhas
    · rw [hqueue] at hmem
      rcases List.mem_cons.mp hmem with rfl | hmem
      · exact .inr (hunder.edited hstage ip' f (by rw [hqueue, List.head?_cons]) hf)
      · exact .inl hmem
    · exact .inr hhas

/-- An upgrade that gives up, or whose anchor is not put. -/
theorem inv_over (h : Inv current w) {i : ℕ} {r : Rollout} (hr : w.rollouts[i]? = some r) :
    Inv current { w with rollouts := w.rollouts.set i { r with stage := .over } } :=
  { h with
    rollouts := forall_mem_set h.rollouts (h.rollouts r (List.mem_of_getElem? hr))
    early := fun hnone => absurd hnone (h.anchored hr)
    alone := h.alone.set_over rfl }

/-- The anchor put at the end of an upgrade makes its target the current version. -/
theorem inv_finish (h : Inv current w) {i : ℕ} {r : Rollout} (hr : w.rollouts[i]? = some r)
    (hqueue : r.queue = []) (hstage : r.stage = .idle) (hrenders : w.renders = []) :
    Inv r.target { w with
      rollouts := w.rollouts.set i { r with stage := .over }
      anchor := some r.target
      file := settled w.file } := by
  have hne : r.stage ≠ .over := by
    rw [hstage]
    nofun
  have hunder := h.alone.underway hr hne
  have hversion := h.rollouts r (List.mem_of_getElem? hr)
  refine ⟨fun ip f hf => ?_, ?_, ?_, fun a ha => ?_, nofun, forall_mem_set h.rollouts hversion,
    h.requests, nofun, h.alone.set hr hne fun hover => absurd rfl hover, h.refused⟩
  · -- no peer is left in the queue, so every file has the target
    obtain ⟨f', hf', rfl⟩ := Option.map_eq_some_iff.mp hf
    rcases hunder.done ip f' hf' with hmem | hhas
    · rw [hqueue] at hmem
      cases hmem
    · exact ⟨⟨r.target, hhas, fun _ => rfl⟩, (h.files ip f' hf').2⟩
  · dsimp only
    rw [hunder.bodiless]
    nofun
  · dsimp only
    rw [hrenders]
    nofun
  · cases ha
    exact ⟨oneLine_of_isVersion hversion, rfl⟩

theorem inv_issue (h : Inv current w) {leader : String} {f : TagFile} (hf : w.file leader = some f)
    (hcalm : w.calm = true) :
    Inv current { w with bodies := w.bodies ++ [⟨issued f.lines, f.rewritten⟩] } := by
  obtain ⟨⟨tag, htag, hsame⟩, -⟩ := h.files leader f hf
  have hissued : issued f.lines = [MILVUS_IMAGE_TAG.line tag] := by
    rw [issued, htag.2, copiedTag_line htag.1]
  simp only [World.calm, List.all_eq_true, decide_eq_true_eq] at hcalm
  refine { h with
    bodies := forall_mem_snoc h.bodies ⟨tag, ⟨htag.1, hissued⟩, hsame⟩
    early := fun hnone => ?_
    alone := alone_of_over hcalm }
  obtain ⟨hrollouts, hrequests, hfiles, hbodies⟩ := h.early hnone
  exact ⟨hrollouts, hrequests, hfiles, forall_mem_snoc hbodies (hfiles leader f hf)⟩

theorem inv_join (h : Inv current w) {k : ℕ} {ip : String} {f : TagFile} (hf : f ∈ w.bodies) :
    Inv current { w with
      file := Function.update w.file ip (some f)
      peers := ip :: w.peers
      bodies := w.bodies.eraseIdx k } := by
  have hold : ∀ ip' f', w.file ip' = some f' → f'.Ok current ∧ ip' ∈ ip :: w.peers :=
    fun ip' f' hf' => ⟨(h.files ip' f' hf').1, List.mem_cons_of_mem ip (h.files ip' f' hf').2⟩
  refine { h with
    files := files_update hold ⟨h.bodies f hf, List.mem_cons_self⟩
    bodies := fun f' hf' => h.bodies f' (List.mem_of_mem_eraseIdx hf')
    early := fun hnone => ?_
    alone := alone_of_over (h.alone.over_of_mem hf) }
  obtain ⟨hrollouts, hrequests, hfiles, hbodies⟩ := h.early hnone
  exact ⟨hrollouts, hrequests, files_update hfiles (hbodies f hf),
    fun f' hf' => hbodies f' (List.mem_of_mem_eraseIdx hf')⟩

theorem inv_boot (h : Inv current w) {ip tag : String} {f : TagFile} (hf : w.file ip = some f)
    (hregistered : registeredTag f.lines = some tag) :
    Inv current { w with starting := w.starting ++ [tag] } := by
  obtain ⟨⟨tag', htag, hsame⟩, -⟩ := h.files ip f hf
  rw [htag.2, registeredTag_line htag.1] at hregistered
  cases hregistered
  refine { h with starting := fun t ht hnone => ?_ }
  rcases List.mem_append.mp ht with ht | ht
  · exact h.starting t ht hnone
  · rw [List.mem_singleton.mp ht]
    exact ⟨hsame ((h.early hnone).2.2.1 ip f hf), htag.1⟩

/-- A registration leaves an anchor that is there. -/
theorem inv_register (h : Inv current w) {k : ℕ} {tag : String} (ht : tag ∈ w.starting) :
    Inv current { w with
      starting := w.starting.eraseIdx k, anchor := w.anchor.or (some tag) } := by
  have hsome : w.anchor.or (some tag) ≠ none := by simp
  refine { h with
    anchor := fun a ha => ?_
    starting := fun t _ hnone => absurd hnone hsome
    early := fun hnone => absurd hnone hsome }
  rcases Option.or_eq_some_iff.mp ha with ha | ⟨hnone, ha⟩
  · exact h.anchor a ha
  · cases ha
    obtain ⟨rfl, htag⟩ := h.starting tag ht hnone
    exact ⟨oneLine_of_isTag htag, rfl⟩

theorem inv_load (h : Inv current w) {ip : String} {f : TagFile} (hf : w.file ip = some f) :
    Inv current { w with renders := w.renders ++ [(ip, ⟨imageTag f.lines, f.rewritten⟩)] } := by
  obtain ⟨⟨tag, htag, hsame⟩, -⟩ := h.files ip f hf
  refine { h with renders := forall_mem_snoc h.renders ?_ }
  rw [htag.2, imageTag_line htag.1]
  exact ⟨htag.1, hsame⟩

/-- A render that gets the anchor has read the current version. -/
theorem inv_probe (h : Inv current w) {k : ℕ} {d e a : Bool} {ip : String} {tag : Tag}
    (hr : w.renders[k]? = some (ip, tag)) (hg : orderly w (.probe k d e a) = true) :
    Inv current { w with
      renders := w.renders.eraseIdx k
      refused := if refuses (w.probe d e a) tag.text then w.refused ++ [ip] else w.refused } := by
  obtain ⟨htag, hsame⟩ := h.renders _ (List.mem_of_getElem? hr)
  have haccepts : refuses (w.probe d e a) tag.text = false := by
    refine accepts htag fun anchor hanchor => ?_
    obtain ⟨hone, hversion⟩ := h.anchor anchor hanchor
    refine ⟨hone, fun hgets => ?_⟩
    simp only [orderly, hgets, hr, Bool.not_true, Bool.false_or, Option.all_some,
      Bool.not_eq_true'] at hg
    rw [hversion, hsame hg]
  refine { h with
    renders := fun r hr' => h.renders r (List.mem_of_mem_eraseIdx hr')
    refused := ?_ }
  dsimp only
  rw [haccepts]
  exact h.refused

end

theorem inv_step {current : String} {w v : World} {act : Act} (h : Inv current w)
    (hg : orderly w act = true) (hs : step w act = some v) : ∃ current', Inv current' v := by
  cases steps_of_step hs with
  | begin hversion => exact ⟨current, inv_begin h hversion hg⟩
  | send hr hqueue hstage => exact ⟨current, inv_send h hr hqueue hstage⟩
  | edit hq hf hline => exact ⟨current, inv_edit h hq hf hline⟩
  | answer hr hqueue hstage => exact ⟨current, inv_answer h hr hqueue hstage⟩
  | abort hr => exact ⟨current, inv_over h hr⟩
  | @finish i put r hr hqueue hstage hput =>
      have hrenders : w.renders = [] := by
        simpa only [orderly, hput, Bool.not_true, Bool.false_or, decide_eq_true_eq] using hg
      exact ⟨r.target, inv_finish h hr hqueue hstage hrenders⟩
  | fail hr hput => exact ⟨current, inv_over h hr⟩
  | issue hf => exact ⟨current, inv_issue h hf hg⟩
  | join hf => exact ⟨current, inv_join h hf⟩
  | boot hf htag => exact ⟨current, inv_boot h hf htag⟩
  | register ht => exact ⟨current, inv_register h ht⟩
  | load hf => exact ⟨current, inv_load h hf⟩
  | probe hr => exact ⟨current, inv_probe h hr hg⟩

/-- In a run in which upgrades go through every peer, one at a time and with no join
at work, no render is refused when those that get the anchor are on peers whose tag
no upgrade has rewritten since the anchor was put. -/
theorem never_refused {ip tag : String} (htag : IsTag tag) {as : List Act} {w : World}
    (hg : Keeps step (fun w act => orderly w act = true) (start ip tag) as)
    (hr : run step (start ip tag) as = some w) : w.refused = [] := by
  have hinv : ∃ current, Inv current w :=
    run_guarded (fun s a t hs ha ht => inv_step hs.choose_spec ha ht) ⟨tag, inv_start ip htag⟩ hg hr
  obtain ⟨current, h⟩ := hinv
  exact h.refused

/-! ## An upgrade of one peer -/

/-- The upgrade job of the bootstrap peer. -/
def upgradeAlone : Job where
  nodeName := "node-1"
  localIp := "10.0.0.1"
  listenPort := 19500
  isLeader := true
  mirror := OrderedMap.empty.putAll [("node-1", .obj [("ip", .str "10.0.0.1")])]
  milvusVersion := some "v2.5.5"

def registeredFirst : List Act := [.boot "10.0.0.1", .register 0]

def rendered : List Act := [.load "10.0.0.1", .probe 0 true true true]

/-- A peer is added when the upgrade is over. -/
def addedAfterwards : List Act :=
  registeredFirst ++ [Act.begin upgradeAlone, .send 0, .edit 0, .answer 0, .finish 0 .answered] ++ rendered

theorem never_refused_afterwards : ∃ w,
    run step (start "10.0.0.1" "v2.5.4") addedAfterwards = some w ∧ w.refused = [] := by
  have hrun : (run step (start "10.0.0.1" "v2.5.4") addedAfterwards).isSome = true := by
    decide +kernel
  obtain ⟨w, hw⟩ := Option.isSome_iff_exists.mp hrun
  exact ⟨w, hw, never_refused (by decide +kernel) (by decide +kernel) hw⟩

/-- A peer is added while the upgrade waits for Milvus: the leader has the new tag
and the anchor the old one. -/
theorem upgraded_peer_refused : ∃ (ip tag : String) (as : List Act) (w : World), IsTag tag ∧
    run step (start ip tag) as = some w ∧ w.refused ≠ [] := by
  have hrun : (run step (start "10.0.0.1" "v2.5.4")
      (registeredFirst ++ [Act.begin upgradeAlone, .send 0, .edit 0] ++ rendered)).any
        (fun w => decide (w.refused ≠ [])) = true := by
    decide +kernel
  obtain ⟨w, hw, htest⟩ := (Option.any_eq_true _ _).mp hrun
  exact ⟨_, _, _, w, by decide +kernel, hw, of_decide_eq_true htest⟩

end MilvusOnprem.VersionGuard
