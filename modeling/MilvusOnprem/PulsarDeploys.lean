import MilvusOnprem.ReadersAgree
import MilvusOnprem.PeerWatchdog

/-!
# The deploys that run Pulsar

A deploy of Milvus 2.5 runs Pulsar, one of 2.6 does not. The shell derives the version
from the tag of the image and the queue from the version. The removal of a node, the
watchdog and the upgrade look at the tag in `cluster.env` on their own, and each of them
takes it apart differently.
-/
namespace MilvusOnprem.PulsarDeploys

open PythonText ClusterEnv EnvText ShellSource Assignments RemoveNode PeerWatchdog

/-! ## The shell -/

abbrev Vars := List (String × String)

/-- `"${NAME:-}"` -/
def value (vars : Vars) (name : String) : String := (last name vars).getD ""

/-- `: "${NAME:=dflt}"` -/
def withDefault (name dflt : String) (vars : Vars) : Vars :=
  if value vars name = "" then vars ++ [(name, dflt)] else vars

/-- `_env_apply_defaults`, for the variables that are checked below. -/
def envApplyDefaults (vars : Vars) : Vars :=
  withDefault "MILVUS_IMAGE_TAG" "v2.6.11" (withDefault "MODE" "standalone"
    (withDefault "CLUSTER_NAME" "milvus-onprem" vars))

/-- `^([0-9]+)\.([0-9]+)` -/
def majorMinor (tag : List Char) : Option String :=
  match tag.dropWhile Char.isDigit with
  | '.' :: rest =>
      let major := tag.takeWhile Char.isDigit
      let minor := rest.takeWhile Char.isDigit
      if major = [] ∨ minor = [] then none else some (String.ofList (major ++ '.' :: minor))
  | _ => none

/-- `_env_derive_milvus_version` -/
def envDeriveMilvusVersion (vars : Vars) : Except String Vars :=
  let tag := value vars "MILVUS_IMAGE_TAG"
  match majorMinor (removePrefix "v" tag).toList with
  | some version => .ok (vars ++ [("MILVUS_VERSION", version)])
  | none => .error ("MILVUS_IMAGE_TAG=" ++ tag ++
      " doesn't look like a Milvus image tag (expected vN.M.P)")

/-- `_env_apply_version_defaults` -/
def envApplyVersionDefaults (vars : Vars) : Vars :=
  let is25 := value vars "MILVUS_VERSION" = "2.5"
  withDefault "MILVUS_ROOTCOORD_PORT" (if is25 then "53100" else "22125")
    (withDefault "MQ_TYPE" (if is25 then "pulsar" else "woodpecker") vars)

/-- `env_load` of a file that is there. -/
def envLoad (vars : Vars) : Except String Vars :=
  (envDeriveMilvusVersion (envApplyDefaults vars)).map envApplyVersionDefaults

/-- The directories under `templates`. -/
def templates : List String := ["2.5", "2.6"]

/-- `_env_validate_milvus_version` -/
def envValidateMilvusVersion (vars : Vars) : Except String Unit :=
  let version := value vars "MILVUS_VERSION"
  if version ∈ templates then .ok ()
  else .error ("Milvus " ++ version ++ " not supported in this build — no templates/" ++ version ++
    "/. See docs/CONFIG.md for the supported-versions matrix.")

/-- `_env_validate_mq_type` -/
def envValidateMqType (vars : Vars) : Except String Unit :=
  let pair := value vars "MILVUS_VERSION" ++ "/" ++ value vars "MQ_TYPE"
  if pair = "2.6/woodpecker" then .ok ()
  else if pair = "2.5/pulsar" then .ok ()
  else if pair = "2.6/pulsar" then
    .error ("Milvus 2.6 + MQ_TYPE=pulsar is not wired up in this build — templates/2.6/ has no Pulsar " ++
      "service block. Use MQ_TYPE=woodpecker on 2.6 (the embedded WAL is the recommended path); to run " ++
      "Pulsar, use Milvus 2.5 (MILVUS_IMAGE_TAG=v2.5.x).")
  else if pair = "2.5/woodpecker" then
    .error ("Milvus 2.5 doesn't support Woodpecker (Woodpecker was introduced in 2.6). Set " ++
      "MQ_TYPE=pulsar in cluster.env.")
  else .error ("unsupported (MILVUS_VERSION=" ++ value vars "MILVUS_VERSION" ++ ", MQ_TYPE=" ++
    value vars "MQ_TYPE" ++ ") combination — see docs/CONFIG.md")

/-- `[[ -n "${NAME:-}" ]] || die` -/
def required (name : String) (vars : Vars) : Except String Unit :=
  if value vars name ≠ "" then .ok () else .error (name ++ " not set in cluster.env")

/-- The checks of `env_require` after the load. -/
def validate (vars : Vars) : Except String Unit := do
  required "PEER_IPS" vars
  required "CLUSTER_NAME" vars
  required "MINIO_SECRET_KEY" vars
  if value vars "MODE" = "distributed" ∧ value vars "CLUSTER_TOKEN" = "" then
    .error "CLUSTER_TOKEN not set in cluster.env (required for MODE=distributed)"
  envValidateMilvusVersion vars
  envValidateMqType vars

/-- `env_require`: the variables, or what the script dies of; nothing if the file has a
line that is not followed. -/
def envRequire (clusterEnv : String) (file : Option String) : Option (Except String Vars) :=
  match file with
  | none => some (.error ("cluster.env not found at " ++ clusterEnv ++ " — run \x60milvus-onprem init\x60 first"))
  | some text => (source text).map fun vars => do
      let loaded ← envLoad vars
      validate loaded
      .ok loaded

/-! ## The upgrade -/

def services25 : List String := ["mixcoord", "proxy", "querynode", "datanode", "indexnode"]

/-- `_milvus_services` -/
def milvusServices (text : String) : List String :=
  let mode := readKv text "MODE"
  if startsWith (readKv text "MILVUS_IMAGE_TAG") "v2.5" then services25
  else if (if mode = "" then "standalone" else mode) = "distributed" then
    ["mixcoord", "proxy", "querynode", "datanode", "streamingnode"]
  else ["milvus"]

/-! ## The agreement -/

/-- The daemon takes the deploy for one of Pulsar exactly if the shell does. -/
structure Agree (loaded : Vars) (text : String) : Prop where
  removal : isPulsarDeploy (some text) = true ↔ value loaded "MQ_TYPE" = "pulsar"
  watchdog : mqType (some text) = "pulsar" ↔ value loaded "MQ_TYPE" = "pulsar"
  upgrade : milvusServices text = services25 ↔ value loaded "MQ_TYPE" = "pulsar"

/-- A tag of 2.5, with or without a `v`, that has no further digit. -/
def isOf25 (tag : String) : Bool :=
  let bare := removePrefix "v" tag
  startsWith bare "2.5" && !(removePrefix "2.5" bare).toList.head?.any Char.isDigit

/-- The tag `2.5`, or one that continues with a dot. -/
def Dotted25 (tag : String) : Prop := tag = "2.5" ∨ startsWith tag "2.5." = true

/-- What the daemon reads is of 2.5 to all of its readers. -/
structure Marked (tag mq : String) : Prop where
  prefixed : startsWith tag "v2.5" = true
  queue : mq = "pulsar" ∨ mq = "" ∧ Dotted25 (lstripOf 'v' tag)

/-- What the daemon reads is of 2.5 to none of its readers. -/
structure Unmarked (tag mq : String) : Prop where
  unprefixed : startsWith tag "v2.5" = false
  queue : lower (strip mq) ≠ "pulsar"
  undotted : strip mq = "" → ¬Dotted25 (lstripOf 'v' tag)

/-- What the shell has for the tag, and what the daemon reads for the tag and the queue. -/
def Recognised (shellTag tag mq : String) : Prop :=
  if isOf25 shellTag = true then Marked tag mq else Unmarked tag mq

/-- The tag after the defaults. -/
def imageTag (vars : Vars) : String :=
  if value vars "MILVUS_IMAGE_TAG" = "" then "v2.6.11" else value vars "MILVUS_IMAGE_TAG"

/-! ## Variables of the shell -/

section Shell

variable {vars loaded : Vars} {name : String}

theorem value_append (n v : String) :
    value (vars ++ [(n, v)]) name = if n = name then v else value vars name := by
  unfold value
  rw [last_append, last_singleton]
  split_ifs <;> simp

theorem value_withDefault (n dflt : String) : value (withDefault n dflt vars) name =
    if n = name ∧ value vars n = "" then dflt else value vars name := by
  unfold withDefault
  by_cases hempty : value vars n = ""
  · rw [if_pos hempty, value_append]
    simp only [hempty, and_true]
  · rw [if_neg hempty, if_neg fun h => hempty h.2]

theorem value_imageTag : value (envApplyDefaults vars) "MILVUS_IMAGE_TAG" = imageTag vars := by
  unfold envApplyDefaults imageTag
  simp [value_withDefault]

theorem derived {out : Vars} (h : envDeriveMilvusVersion vars = .ok out) : ∃ version,
    majorMinor (removePrefix "v" (value vars "MILVUS_IMAGE_TAG")).toList = some version ∧
      out = vars ++ [("MILVUS_VERSION", version)] := by
  unfold envDeriveMilvusVersion at h
  dsimp only at h
  generalize majorMinor (removePrefix "v" (value vars "MILVUS_IMAGE_TAG")).toList = derived at h
  cases derived with
  | none => cases h
  | some version =>
      cases h
      exact ⟨version, rfl, rfl⟩

/-- The version that is loaded is the one of the tag. -/
theorem value_loaded (h : envLoad vars = .ok loaded) :
    majorMinor (removePrefix "v" (imageTag vars)).toList = some (value loaded "MILVUS_VERSION") := by
  unfold envLoad at h
  cases hout : envDeriveMilvusVersion (envApplyDefaults vars) with
  | error e =>
      rw [hout] at h
      cases h
  | ok out =>
      rw [hout] at h
      obtain ⟨version, hversion, hvars⟩ := derived hout
      rw [value_imageTag] at hversion
      rw [← Except.ok.inj h, hvars]
      simp [envApplyVersionDefaults, value_withDefault, value_append, hversion]

/-- The two pairs that are accepted. -/
theorem validated (h : validate loaded = .ok ()) :
    value loaded "MILVUS_VERSION" = "2.5" ∧ value loaded "MQ_TYPE" = "pulsar" ∨
      value loaded "MILVUS_VERSION" = "2.6" ∧ value loaded "MQ_TYPE" = "woodpecker" := by
  have hchecks : value loaded "MILVUS_VERSION" ∈ templates ∧ envValidateMqType loaded = .ok () := by
    unfold validate required envValidateMilvusVersion at h
    simp only [bind, Except.bind] at h
    split_ifs at h
    exact ⟨by assumption, h⟩
  obtain ⟨hversion, hmq⟩ := hchecks
  have hpair : value loaded "MILVUS_VERSION" ++ "/" ++ value loaded "MQ_TYPE" = "2.6/woodpecker" ∨
      value loaded "MILVUS_VERSION" ++ "/" ++ value loaded "MQ_TYPE" = "2.5/pulsar" := by
    unfold envValidateMqType at hmq
    dsimp only at hmq
    split_ifs at hmq with h1 h2
    · exact .inl h1
    · exact .inr h2
  have hcancel : ∀ head a b : String, head ++ a = head ++ b → a = b := by
    intro head a b hab
    have hlist := congrArg String.toList hab
    rw [String.toList_append, String.toList_append] at hlist
    exact String.toList_injective (List.append_cancel_left hlist)
  simp only [templates, List.mem_cons, List.not_mem_nil, or_false] at hversion
  rcases hversion with hversion | hversion <;> rw [hversion] at hpair ⊢
  · refine .inl ⟨rfl, hcancel ("2.5" ++ "/") _ _ (hpair.resolve_left fun he => ?_)⟩
    have hhead := congrArg (fun s : String => s.toList[2]?) he
    simp at hhead
  · refine .inr ⟨rfl, hcancel ("2.6" ++ "/") _ _ (hpair.resolve_right fun he => ?_)⟩
    have hhead := congrArg (fun s : String => s.toList[2]?) he
    simp at hhead

end Shell

theorem toList_removePrefix {pre s : String} (h : startsWith s pre = true) :
    s.toList = pre.toList ++ (removePrefix pre s).toList := by
  conv_lhs => rw [← append_removePrefix h]
  exact String.toList_append

/-- The version is 2.5 for the tags that begin so. -/
theorem majorMinor_eq_iff (tag : String) : majorMinor tag.toList = some "2.5" ↔
    startsWith tag "2.5" = true ∧ (removePrefix "2.5" tag).toList.head?.any Char.isDigit = false := by
  have hparts : "2.5".toList = ['2', '.', '5'] := rfl
  have hdigits : '2'.isDigit = true ∧ '5'.isDigit = true ∧ '.'.isDigit = false := by decide
  constructor
  · intro h
    unfold majorMinor at h
    split at h
    · next rest hrest =>
        dsimp only at h
        split_ifs at h with hempty
        rw [not_or] at hempty
        have heq := congrArg String.toList (Option.some.inj h)
        rw [String.toList_ofList, hparts] at heq
        -- a digit is no dot, so the number before the dot is `2`
        obtain ⟨hmajor, hminor⟩ : tag.toList.takeWhile Char.isDigit = ['2'] ∧
            rest.takeWhile Char.isDigit = ['5'] := by
          cases hmajor : tag.toList.takeWhile Char.isDigit with
          | nil => exact absurd hmajor hempty.1
          | cons a major =>
              rw [hmajor, List.cons_append, List.cons.injEq] at heq
              obtain ⟨rfl, heq⟩ := heq
              cases major with
              | nil => exact ⟨rfl, (List.cons.inj heq).2⟩
              | cons b major =>
                  rw [List.cons_append, List.cons.injEq] at heq
                  have hdigit : b.isDigit = true :=
                    List.mem_takeWhile_imp (hmajor ▸ List.mem_cons_of_mem _ List.mem_cons_self)
                  rw [heq.1, hdigits.2.2] at hdigit
                  cases hdigit
        have htag : tag.toList = "2.5".toList ++ rest.dropWhile Char.isDigit := by
          calc tag.toList
              = tag.toList.takeWhile Char.isDigit ++ tag.toList.dropWhile Char.isDigit :=
                List.takeWhile_append_dropWhile.symm
            _ = ['2'] ++ '.' :: (rest.takeWhile Char.isDigit ++ rest.dropWhile Char.isDigit) := by
                rw [hmajor, hrest, List.takeWhile_append_dropWhile]
            _ = "2.5".toList ++ rest.dropWhile Char.isDigit := by
                rw [hminor, hparts]
                rfl
        have hstarts : startsWith tag "2.5" = true :=
          List.isPrefixOf_iff_prefix.mpr ⟨_, htag.symm⟩
        refine ⟨hstarts, ?_⟩
        rw [toList_removePrefix hstarts] at htag
        rw [List.append_cancel_left htag]
        cases hdrop : rest.dropWhile Char.isDigit with
        | nil => rfl
        | cons c cs =>
            have hhead := List.head_dropWhile_not Char.isDigit (l := rest) (by rw [hdrop]; simp)
            simpa [hdrop] using hhead
    · cases h
  · rintro ⟨hstarts, hdigit⟩
    have hnext : (removePrefix "2.5" tag).toList.takeWhile Char.isDigit = [] := by
      cases hrest : (removePrefix "2.5" tag).toList with
      | nil => rfl
      | cons c cs =>
          rw [hrest] at hdigit
          exact List.takeWhile_cons_of_neg (by simpa using hdigit)
    rw [toList_removePrefix hstarts, hparts]
    simp [majorMinor, hdigits, hnext]

/-- The queue of the shell is the one of its tag. -/
theorem pulsar_iff {clusterEnv text : String} {vars loaded : Vars} (hsource : source text = some vars)
    (h : envRequire clusterEnv (some text) = some (.ok loaded)) :
    value loaded "MQ_TYPE" = "pulsar" ↔ isOf25 (imageTag vars) = true := by
  have hok : envLoad vars = .ok loaded ∧ validate loaded = .ok () := by
    rw [envRequire, hsource, Option.map_some, Option.some.injEq] at h
    cases hload : envLoad vars with
    | error e =>
        rw [hload] at h
        cases h
    | ok vars' =>
        rw [hload] at h
        simp only [bind, Except.bind] at h
        split at h
        · cases h
        · next hvalid =>
            cases h
            exact ⟨rfl, hvalid⟩
  have h25 : value loaded "MQ_TYPE" = "pulsar" ↔ value loaded "MILVUS_VERSION" = "2.5" := by
    rcases validated hok.2 with ⟨hv, hmq⟩ | ⟨hv, hmq⟩
    · rw [hv, hmq]
      decide
    · rw [hv, hmq]
      decide
  rw [h25, isOf25, Bool.and_eq_true, Bool.not_eq_true', ← majorMinor_eq_iff, value_loaded hok.1,
    Option.some.injEq]

/-! ## What the daemon reads -/

section Daemon

variable {text : String}

/-- The first two parts of a tag are 2 and 5. -/
theorem parts_iff (tag : String) : (match split '.' tag with
    | a :: b :: _ => a = "2" && b = "5"
    | _ => false) = true ↔ Dotted25 tag := by
  have hparts : "2.5.".toList = ['2', '.', '5', '.'] := rfl
  constructor
  · intro h
    have htag : tag.toList = ['.'].intercalate (tag.toList.splitOn '.') := (List.intercalate_splitOn '.').symm
    unfold split at h
    match hsplit : tag.toList.splitOn '.' with
    | [] | [_] =>
        rw [hsplit] at h
        cases h
    | a :: b :: rest =>
        rw [hsplit] at h htag
        simp only [List.map_cons, Bool.and_eq_true, decide_eq_true_eq] at h
        have ha : a = ['2'] := String.ofList_injective (h.1.trans rfl)
        have hb : b = ['5'] := String.ofList_injective (h.2.trans rfl)
        subst ha hb
        cases rest with
        | nil =>
            refine .inl (String.toList_injective (htag.trans ?_))
            rfl
        | cons next rest =>
            refine .inr (List.isPrefixOf_iff_prefix.mpr ⟨['.'].intercalate (next :: rest), ?_⟩)
            rw [htag, hparts]
            simp [List.intercalate]
  · rintro (rfl | h)
    · decide +kernel
    · have hsplit : tag.toList.splitOn '.' =
          ['2'] :: ['5'] :: (removePrefix "2.5." tag).toList.splitOn '.' := by
        have hhead : ['2', '.', '5'].splitOn '.' = [['2'], ['5']] := by decide +kernel
        have happend := List.splitOn_append_cons_self (a := '.') ['2', '.', '5'] (removePrefix "2.5." tag).toList
        rw [hhead] at happend
        rw [toList_removePrefix h, hparts]
        exact happend
      rw [split, hsplit]
      rfl

theorem lower_eq_empty {s : String} : lower s = "" ↔ s = "" := by
  rw [← String.toList_inj, ← String.toList_inj, lower, String.toList_ofList]
  exact List.map_eq_nil_iff

theorem isPulsarDeploy_iff : isPulsarDeploy (some text) = true ↔
    lower (strip (readKv text "MQ_TYPE")) = "pulsar" ∨
      strip (readKv text "MQ_TYPE") = "" ∧ Dotted25 (lstripOf 'v' (readKv text "MILVUS_IMAGE_TAG")) := by
  unfold isPulsarDeploy
  dsimp only
  rw [← readKv, ← readKv]
  generalize lstripOf 'v' (readKv text "MILVUS_IMAGE_TAG") = tag
  by_cases hempty : strip (readKv text "MQ_TYPE") = ""
  · have hlower : lower "" ≠ "pulsar" := by decide
    rw [if_neg (by rw [not_not, lower_eq_empty, hempty]), hempty]
    simp only [hlower, true_and, false_or]
    exact parts_iff tag
  · rw [if_pos (fun h => hempty (lower_eq_empty.mp h)), decide_eq_true_eq]
    simp only [hempty, false_and, or_false]

theorem mqType_iff : mqType (some text) = "pulsar" ↔ readKv text "MQ_TYPE" = "pulsar" ∨
    readKv text "MQ_TYPE" = "" ∧ startsWith (readKv text "MILVUS_IMAGE_TAG") "v2.5" = true := by
  unfold mqType
  dsimp only
  rw [← readKv, ← readKv]
  by_cases hempty : readKv text "MQ_TYPE" = ""
  · rw [if_neg (not_not.mpr hempty), hempty]
    split_ifs with hfamily <;> simp [hfamily]
  · rw [if_pos hempty]
    simp only [hempty, false_and, or_false]

theorem milvusServices_iff : milvusServices text = services25 ↔
    startsWith (readKv text "MILVUS_IMAGE_TAG") "v2.5" = true := by
  unfold milvusServices
  dsimp only
  split_ifs with hfamily hmode
  · simp [hfamily]
  all_goals
    rw [Bool.not_eq_true] at hfamily
    rw [hfamily]
    decide

end Daemon

/-- On an accepted file all of them agree exactly if the tag and the queue that the daemon
reads are written as those of the shell's version. -/
theorem agree_iff {clusterEnv text : String} {vars loaded : Vars} (hsource : source text = some vars)
    (h : envRequire clusterEnv (some text) = some (.ok loaded)) :
    Agree loaded text ↔
      Recognised (imageTag vars) (readKv text "MILVUS_IMAGE_TAG") (readKv text "MQ_TYPE") := by
  have hpulsar := pulsar_iff hsource h
  generalize htag : readKv text "MILVUS_IMAGE_TAG" = tag
  generalize hmq : readKv text "MQ_TYPE" = mq
  have hremoval := @isPulsarDeploy_iff text
  have hwatchdog := @mqType_iff text
  have hupgrade := @milvusServices_iff text
  rw [htag, hmq] at hremoval hwatchdog
  rw [htag] at hupgrade
  have hstrip : strip "" = "" := rfl
  have hlower : lower "" ≠ "pulsar" := by decide
  unfold Recognised
  split_ifs with h25
  · rw [h25] at hpulsar
    constructor
    · intro hagree
      have hfamily := hupgrade.mp (hagree.upgrade.mpr (hpulsar.mpr rfl))
      refine ⟨hfamily, ?_⟩
      rcases hwatchdog.mp (hagree.watchdog.mpr (hpulsar.mpr rfl)) with hq | ⟨hq, -⟩
      · exact .inl hq
      · rcases hremoval.mp (hagree.removal.mpr (hpulsar.mpr rfl)) with hl | ⟨-, hdotted⟩
        · rw [hq, hstrip] at hl
          exact absurd hl hlower
        · exact .inr ⟨hq, hdotted⟩
    · rintro ⟨hfamily, hqueue⟩
      refine ⟨?_, ?_, ?_⟩
      · refine iff_of_true (hremoval.mpr ?_) (hpulsar.mpr rfl)
        rcases hqueue with rfl | ⟨rfl, hdotted⟩
        · exact .inl (by decide)
        · exact .inr ⟨hstrip, hdotted⟩
      · refine iff_of_true (hwatchdog.mpr ?_) (hpulsar.mpr rfl)
        exact hqueue.imp_right fun hq => ⟨hq.1, hfamily⟩
      · exact iff_of_true (hupgrade.mpr hfamily) (hpulsar.mpr rfl)
  · have hno : ¬value loaded "MQ_TYPE" = "pulsar" := fun hq => h25 (hpulsar.mp hq)
    constructor
    · intro hagree
      have hremove := fun hr => hno (hagree.removal.mp (hremoval.mpr hr))
      refine ⟨?_, fun hl => hremove (.inl hl), fun hs hd => hremove (.inr ⟨hs, hd⟩)⟩
      rw [Bool.eq_false_iff]
      exact fun hfamily => hno (hagree.upgrade.mp (hupgrade.mpr hfamily))
    · rintro ⟨hfamily, hqueue, hundotted⟩
      rw [← Bool.not_eq_true] at hfamily
      refine ⟨?_, ?_, ?_⟩
      · refine iff_of_false (fun hr => ?_) hno
        rcases hremoval.mp hr with hl | ⟨hs, hd⟩
        · exact hqueue hl
        · exact hundotted hs hd
      · refine iff_of_false (fun hw => ?_) hno
        rcases hwatchdog.mp hw with rfl | ⟨-, hp⟩
        · exact hqueue (by decide)
        · exact hfamily hp
      · exact iff_of_false (fun hu => hfamily (hupgrade.mp hu)) hno

/-- A file with the tag of a deploy. -/
def envOf (tag : String) : String :=
  "PEER_IPS=10.0.0.1\nMINIO_SECRET_KEY=s3cret\nMILVUS_IMAGE_TAG=" ++ tag ++ "\n"

theorem envRequire_of_isOk {clusterEnv text : String}
    (h : ((envRequire clusterEnv (some text)).any Except.isOk) = true) :
    ∃ loaded, envRequire clusterEnv (some text) = some (.ok loaded) := by
  obtain ⟨res, hres, hok⟩ := (Option.any_eq_true _ _).mp h
  cases res with
  | error e => cases hok
  | ok loaded => exact ⟨loaded, hres⟩

theorem agree_iff_tagged : ∃ loaded, Agree loaded (envOf "v2.5.4") := by
  obtain ⟨loaded, hloaded⟩ : ∃ loaded, envRequire "cluster.env" (some (envOf "v2.5.4")) = some (.ok loaded) :=
    envRequire_of_isOk (by decide +kernel)
  have hsource : source (envOf "v2.5.4") = some [("PEER_IPS", "10.0.0.1"),
      ("MINIO_SECRET_KEY", "s3cret"), ("MILVUS_IMAGE_TAG", "v2.5.4")] := by decide +kernel
  refine ⟨loaded, (agree_iff hsource hloaded).mpr ?_⟩
  exact ⟨by decide +kernel, .inr ⟨by decide +kernel, .inr (by decide +kernel)⟩⟩

/-- Without its `v` a tag of 2.5 is one of Pulsar to the shell and to the removal only. -/
theorem bare_tag_disagrees : ¬∀ clusterEnv text loaded,
    envRequire clusterEnv (some text) = some (.ok loaded) → Agree loaded text := by
  intro h
  obtain ⟨loaded, hloaded⟩ : ∃ loaded, envRequire "cluster.env" (some (envOf "2.5.4")) = some (.ok loaded) :=
    envRequire_of_isOk (by decide +kernel)
  have hagree := h _ _ _ hloaded
  have hremoval : isPulsarDeploy (some (envOf "2.5.4")) = true := by decide +kernel
  have hwatchdog := hagree.watchdog.mpr (hagree.removal.mp hremoval)
  revert hwatchdog
  decide +kernel

end MilvusOnprem.PulsarDeploys
