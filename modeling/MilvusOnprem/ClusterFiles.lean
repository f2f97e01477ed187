import MilvusOnprem.InitialEnv
import MilvusOnprem.JoinedEnv

/-!
# The files of all hosts

`init` writes the first `cluster.env`, every other host gets its own out of the file of a leader
at its join, and each file is edited where it is. In any order of these every file of the cluster
is one that the shell and the daemon read alike, and what it holds can be told without the texts.
-/
namespace MilvusOnprem.ClusterFiles

open ClusterEnv EnvText ShellSource Assignments EnvStore WrittenEnv InitialEnv JoinedEnv IssuedEnv

variable {H : Type} [DecidableEq H]

/-- What happens to the files. The leader of a join is the host that answers it. -/
inductive Event (H : Type)
  | init (host : H) (a : InitArgs) (overwrite : Bool)
  | edit (host : H) (e : Edit)
  | join (leader joiner : H) (j : JoinArgs)
  | teardown (host : H)

namespace Event

/-- An `init` dies on a file that is there, unless it may overwrite it, and so does a `join`. A file
that an edit cannot write is lost. -/
def apply (files : H → Option String) : Event H → H → Option String
  | .init host a overwrite =>
      if (files host).isSome ∧ overwrite = false then files
      else Function.update files host (some (initWriteClusterEnv a))
  | .edit host e => Function.update files host ((files host).bind fun text => e.apply text)
  | .join leader joiner j => Function.update files joiner ((files joiner).or ((files leader).bind j.cmdJoin))
  | .teardown host => Function.update files host none

/-- What it does to the maps. -/
def effect (maps : H → Option (String → Option String)) : Event H → H → Option (String → Option String)
  | .init host a overwrite =>
      if (maps host).isSome ∧ overwrite = false then maps else Function.update maps host (some (initMap a))
  | .edit host e => Function.update maps host ((maps host).map fun m => e.effect m)
  | .join leader joiner j => Function.update maps joiner ((maps joiner).or ((maps leader).bind j.joined))
  | .teardown host => Function.update maps host none

end Event

/-! ## Values that may be missing -/

section Options

variable {A B C D : Type} {R : A → B → Prop} {S : C → D → Prop} {x : Option A} {y : Option B}

theorem isSome_of_rel (h : Option.Rel R x y) : x.isSome = y.isSome := by cases h <;> rfl

theorem rel_bind (h : Option.Rel R x y) {f : A → Option C} {g : B → Option D}
    (hfg : ∀ a b, R a b → Option.Rel S (f a) (g b)) : Option.Rel S (x.bind f) (y.bind g) := by
  cases h with
  | none => exact .none
  | some hab => exact hfg _ _ hab

theorem rel_or (h : Option.Rel R x y) {x' : Option A} {y' : Option B} (h' : Option.Rel R x' y') :
    Option.Rel R (x.or x') (y.or y') := by
  cases h with
  | none => exact h'
  | some hab => exact .some hab

theorem rel_mono {R' : A → B → Prop} (hR : ∀ a b, R a b → R' a b) (h : Option.Rel R x y) : Option.Rel R' x y := by
  cases h with
  | none => exact .none
  | some hab => exact .some (hR _ _ hab)

theorem rel_of_some (h : Option.Rel R x y) {a : A} (hx : x = some a) : ∃ b, y = some b ∧ R a b := by
  subst hx
  cases h with
  | some hab => exact ⟨_, rfl, hab⟩

end Options

/-! ## Files and maps -/

/-- The text is a file of the store, and holds words. -/
structure Stored (text : String) (m : String → Option String) : Prop where
  file : ∃ f : EnvFile, f.text = text ∧ f.lookup = m
  worded : Worded m

theorem worded_init (a : InitArgs) : Worded (initMap a) := by
  intro key v hv
  obtain ⟨e, he, hentry⟩ := List.mem_filterMap.mp (mem_of_last hv)
  have hmem : e ∈ initBlocks.flatMap Block.echoes := by
    obtain ⟨b, hb, hin⟩ := List.mem_flatMap.mp he
    exact List.mem_flatMap.mpr ⟨b, List.mem_of_mem_filter hb, hin⟩
  exact exists_entryWord a (named_initBlocks e hmem) hentry

theorem Stored.init (a : InitArgs) : Stored (initWriteClusterEnv a) (initMap a) := ⟨init_file a, worded_init a⟩

theorem Stored.edit {text : String} {m : String → Option String} (h : Stored text m) (e : Edit) :
    Option.Rel Stored (e.apply text) (some (e.effect m)) := by
  obtain ⟨f, rfl, rfl⟩ := h.file
  obtain ⟨f', happly, hlookup⟩ := e.apply_text f
  rw [happly]
  exact .some ⟨⟨f', rfl, hlookup⟩, h.worded.effect e⟩

theorem Stored.join {text : String} {m : String → Option String} (h : Stored text m) (j : JoinArgs) :
    Option.Rel Stored (j.cmdJoin text) (j.joined m) := by
  obtain ⟨f, rfl, rfl⟩ := h.file
  rcases j.exists_joined f h.worded with ⟨htext, hmap⟩ | ⟨f', htext, hmap, hworded⟩
  · rw [htext, hmap]
    exact .none
  · rw [htext, hmap]
    exact .some ⟨⟨f', rfl, rfl⟩, hworded⟩

section Steps

variable {files : H → Option String} {maps : H → Option (String → Option String)}

theorem rel_update (h : ∀ host, Option.Rel Stored (files host) (maps host)) (host : H) {file : Option String}
    {m : Option (String → Option String)} (hnew : Option.Rel Stored file m) (other : H) :
    Option.Rel Stored (Function.update files host file other) (Function.update maps host m other) := by
  by_cases hother : other = host
  · subst hother
    rwa [Function.update_self, Function.update_self]
  · rw [Function.update_of_ne hother, Function.update_of_ne hother]
    exact h other

/-- Files and maps stay together under what happens on any host. -/
theorem rel_step (h : ∀ host, Option.Rel Stored (files host) (maps host)) (ev : Event H) :
    ∀ host, Option.Rel Stored (ev.apply files host) (ev.effect maps host) := by
  cases ev with
  | init host a overwrite =>
      rw [Event.apply, Event.effect, isSome_of_rel (h host)]
      split_ifs
      · exact h
      · exact rel_update h host (.some (.init a))
  | edit host e =>
      refine rel_update h host ?_
      rw [Option.map_eq_bind]
      exact rel_bind (h host) fun text m hstored => hstored.edit e
  | join leader joiner j =>
      exact rel_update h joiner (rel_or (h joiner) (rel_bind (h leader) fun text m hstored => hstored.join j))
  | teardown host => exact rel_update h host .none

theorem rel_run (h : ∀ host, Option.Rel Stored (files host) (maps host)) (evs : List (Event H)) :
    ∀ host, Option.Rel Stored (evs.foldl Event.apply files host) (evs.foldl Event.effect maps host) := by
  induction evs generalizing files maps with
  | nil => exact h
  | cons ev evs ih => exact ih (rel_step h ev)

end Steps

theorem Stored.holds {text : String} {m : String → Option String} (h : Stored text m) : Holds text m := by
  obtain ⟨f, rfl, rfl⟩ := h.file
  exact f.holds

/-- From hosts without files on, in any run: the hosts that have a file are those that should, and
sourcing it and the daemon's three readers find in it what the flags, the joins and the edits say. -/
theorem cluster_run (evs : List (Event H)) (host : H) :
    Option.Rel Holds (evs.foldl Event.apply (fun _ => none) host) (evs.foldl Event.effect (fun _ => none) host) :=
  rel_mono (fun _ _ hstored => hstored.holds) (rel_run (fun _ => .none) evs host)

/-! ## The shared settings -/

def edited : Edit → String
  | .upsertKv u | .envUpsertKv u | .sed u => u.key.name

/-- No other cluster is begun, and the key is not edited. -/
def Event.spares (key : String) : Event H → Prop
  | .init _ _ _ => False
  | .edit _ e => edited e ≠ key
  | .join _ _ _ | .teardown _ => True

theorem effect_other {key : String} {e : Edit} (h : edited e ≠ key) (m : String → Option String) :
    e.effect m key = m key := by
  cases e with
  | upsertKv u => exact Function.update_of_ne h.symm _ _
  | envUpsertKv u => exact Function.update_of_ne h.symm _ _
  | sed u =>
      rw [Edit.effect]
      split_ifs
      · exact Function.update_of_ne h.symm _ _
      · rfl

/-- A joiner takes over what belongs to no single host. -/
theorem joined_other {key : String} (hper : key ∉ perPeerKeys) (hroot : key ≠ "DATA_ROOT") {j : JoinArgs}
    {m m' : String → Option String} (h : j.joined m = some m') : m' key = m key := by
  have hrepo : key ≠ "HOST_REPO_ROOT" := by
    rintro rfl
    exact hper (by decide)
  have hissued : j.issued m key = m key := if_neg hper
  rw [JoinArgs.joined] at h
  split_ifs at h
  rw [← Option.some.inj h, ← hissued, JoinArgs.edits, List.foldl_cons]
  have hfirst := effect_other (e := .envUpsertKv j.repoRootUpdate) hrepo.symm (j.issued m)
  split_ifs
  · exact hfirst
  · exact (effect_other (e := .envUpsertKv j.dataRootUpdate) hroot.symm _).trans hfirst

section Shared

variable {key : String} {v : Option String} {maps : H → Option (String → Option String)}

theorem shared_step (hper : key ∉ perPeerKeys) (hroot : key ≠ "DATA_ROOT")
    (h : ∀ host m, maps host = some m → m key = v) {ev : Event H} (hev : ev.spares key) :
    ∀ host m, ev.effect maps host = some m → m key = v := by
  have hupdate : ∀ (host : H) (new : Option (String → Option String)), (∀ m, new = some m → m key = v) →
      ∀ other m, Function.update maps host new other = some m → m key = v := by
    intro host new hnew other m hm
    by_cases hother : other = host
    · subst hother
      rw [Function.update_self] at hm
      exact hnew m hm
    · rw [Function.update_of_ne hother] at hm
      exact h other m hm
  cases ev with
  | init host a overwrite => exact hev.elim
  | edit host e =>
      refine hupdate host _ fun m hm => ?_
      obtain ⟨m₀, hm₀, rfl⟩ := Option.map_eq_some_iff.mp hm
      exact (effect_other hev m₀).trans (h host m₀ hm₀)
  | join leader joiner j =>
      refine hupdate joiner _ fun m hm => ?_
      rcases Option.or_eq_some_iff.mp hm with hm | ⟨-, hm⟩
      · exact h joiner m hm
      · obtain ⟨m₀, hm₀, hjoined⟩ := Option.bind_eq_some_iff.mp hm
        exact (joined_other hper hroot hjoined).trans (h leader m₀ hm₀)
  | teardown host => exact hupdate host none fun m hm => absurd hm (Option.some_ne_none m).symm

theorem shared_run (hper : key ∉ perPeerKeys) (hroot : key ≠ "DATA_ROOT")
    (h : ∀ host m, maps host = some m → m key = v) {evs : List (Event H)} (hevs : ∀ ev ∈ evs, ev.spares key) :
    ∀ host m, evs.foldl Event.effect maps host = some m → m key = v := by
  induction evs generalizing maps with
  | nil => exact h
  | cons ev evs ih =>
      rw [List.forall_mem_cons] at hevs
      exact ih (shared_step hper hroot h hevs.1) hevs.2

end Shared

/-- After one `init`, whatever joins, teardowns and edits of other keys follow on any hosts: a
setting that is of no single host reads in every file of the cluster as `init` wrote it. -/
theorem shared_everywhere {key : String} (hper : key ∉ perPeerKeys) (hroot : key ≠ "DATA_ROOT") (first : H)
    (a : InitArgs) (overwrite : Bool) {evs : List (Event H)} (hevs : ∀ ev ∈ evs, ev.spares key) {host : H}
    {text : String} (hfile : (Event.init first a overwrite :: evs).foldl Event.apply (fun _ => none) host = some text) :
    dictValue text key = initMap a key ∧
      (∀ dflt, readClusterEnvValue (some text) key dflt = (initMap a key).getD dflt) ∧
      readKv text key = (initMap a key).getD "" ∧
      ∃ es, source text = some es ∧ last key es = initMap a key := by
  have hinit : ∀ other m, (Event.init first a overwrite).effect (fun _ => none) other = some m →
      m key = initMap a key := by
    intro other m hm
    rw [Event.effect, if_neg (by simp)] at hm
    by_cases hother : other = first
    · subst hother
      rw [Function.update_self] at hm
      exact congrFun (Option.some.inj hm).symm key
    · rw [Function.update_of_ne hother] at hm
      cases hm
  obtain ⟨m, hm, hholds⟩ := rel_of_some (cluster_run (Event.init first a overwrite :: evs) host) hfile
  have hkey : m key = initMap a key := shared_run hper hroot hinit hevs host m hm
  obtain ⟨es, hsource, hread⟩ := hholds.sourced
  refine ⟨(hholds.dict key).trans hkey, fun dflt => ?_, ?_, es, hsource, (hread key).trans hkey⟩
  · rw [hholds.env, hkey]
  · rw [hholds.kv, hkey]

theorem plain_orEmpty (text : String) : ∀ c ∈ (if isWord text then text else "").toList, isPlain c = true := by
  split_ifs with h
  · exact plain_of_word h
  · exact fun c hc => absurd hc List.not_mem_nil

/-- The word of a text, or the empty one. -/
def word (text : String) : Word := .ofPlain (if isWord text then text else "") (plain_orEmpty text)

/-- Flags of a first host that leave the ports as they are. -/
def firstArgs : InitArgs where
  date := word "2025-01-02T03:04:05Z"
  repoRoot := word "/opt/milvus-onprem"
  mode := word "distributed"
  localIp := word "10.0.0.1"
  clusterName := word "milvus"
  imageTag := word "v2.6.11"
  secret := word "s3cr3t"
  token := word "t0k3n"
  dataRoot := word "/data"
  milvusPort := word ""
  lbPort := word ""
  etcdClient := word ""
  etcdPeer := word ""
  minioApi := word ""
  cpPort := word ""
  haClusterSize := word ""

theorem words_second : ∀ s ∈ ["2025-01-02T04:05:06Z", "node-2", "10.0.0.2", "node-1", "node-2", "10.0.0.1", "10.0.0.2"],
    isWord s = true := by decide

def secondJoin : JoinArgs where
  issuedAt := "2025-01-02T04:05:06Z"
  nodeName := "node-2"
  localIp := "10.0.0.2"
  names := ["node-1", "node-2"]
  ips := ["10.0.0.1", "10.0.0.2"]
  words := words_second
  repoRoot := word "/opt/milvus-onprem"
  dataRoot := word ""

theorem shared_everywhere_joiner : ∃ text,
    [Event.init false firstArgs false, .join false true secondJoin].foldl Event.apply (fun _ => none) true =
      some text ∧ dictValue text "MINIO_SECRET_KEY" = some "s3cr3t" ∧
        (∀ dflt, readClusterEnvValue (some text) "MINIO_SECRET_KEY" dflt = (some "s3cr3t").getD dflt) ∧
        readKv text "MINIO_SECRET_KEY" = (some "s3cr3t").getD "" ∧
        ∃ es, source text = some es ∧ last "MINIO_SECRET_KEY" es = some "s3cr3t" := by
  have hsecret : initMap firstArgs "MINIO_SECRET_KEY" = some "s3cr3t" := by decide +kernel
  have hmap : ([Event.init false firstArgs false, .join false true secondJoin].foldl Event.effect
      (fun _ => none) true).isSome = true := rfl
  have hsome := (isSome_of_rel (cluster_run [Event.init false firstArgs false, .join false true secondJoin] true)).trans
    hmap
  obtain ⟨text, hfile⟩ := Option.isSome_iff_exists.mp hsome
  refine ⟨text, hfile, hsecret ▸ shared_everywhere (by decide) (by decide) false firstArgs false ?_ hfile⟩
  intro ev hev
  rw [List.mem_singleton.mp hev]
  trivial

end MilvusOnprem.ClusterFiles
