import MilvusOnprem.ShellWords
import MilvusOnprem.FlagLoop
import MilvusOnprem.JsonRoundTrip

/-!
# Backups between the daemon and the shell

The jobs that make, export and restore backups are run by the shell commands of the same
names: a worker turns the parameters of its job into a command line, and bash reads that
line back into the flags of the command. The same commands post those jobs in distributed
mode. A parameter is any text, with blanks, quotes and line breaks, and a value that is no
text is written out by the interpreter.

What the commands call is a list of calls; each is made if the one before it succeeds. A
command writes its values into the Python program that makes the request, as literals
`'''…'''`. Values that mean something else there, those with a quote, a backslash or a
carriage return, are left out. So are the checks of `env_require` and `role_detect`, the
polling of a job, and the job's way through etcd.
-/
namespace MilvusOnprem.BackupCommands

open PythonText ShellWords FlagLoop

/-! ## The workers -/

/-- `f"{value}"`, with what the interpreter writes for a value that is no text. -/
def formatted (shown : Json → String) : Json → String
  | .str s => s
  | j => shown j

section Workers

variable (shown : Json → String) (params : List (String × Json))

/-- `ctx.job.params.get(key)` in a formatted string, if it is truthy. -/
def given (key : String) : Option String := ((Json.field key params).filter Json.truthy).map (formatted shown)

/-- `if ctx.job.params.get(key)` -/
def isGiven (key : String) : Bool := (Json.field key params).any Json.truthy

/-- `run_create_backup` -/
def runCreateBackup : Except String (List String) :=
  match given shown params "name" with
  | none => .error "create-backup requires a 'name' param"
  | some name =>
      .ok (["./milvus-onprem", "create-backup"] ++ flagText "--name" (some name) ++
        flagText "--strategy" (given shown params "strategy") ++
        flagText "--collections" (given shown params "collections") ++
        flagText "--milvus-backup-version" (given shown params "milvus_backup_version"))

/-- `run_export_backup` -/
def runExportBackup : Except String (List String) :=
  match given shown params "name", given shown params "to" with
  | none, _ => .error "export-backup requires a 'name' param"
  | some _, none => .error "export-backup requires a 'to' param"
  | some name, some path =>
      .ok (["./milvus-onprem", "export-backup"] ++ flagText "--name" (some name) ++ flagText "--to" (some path))

/-- `run_restore_backup` -/
def runRestoreBackup : Except String (List String) :=
  let source := given shown params "from"
  let name := given shown params "name"
  if source.isNone && name.isNone then .error "restore-backup requires either 'from' or 'name'"
  else
    .ok (["./milvus-onprem", "restore-backup"] ++ flagText "--from" source ++ flagText "--name" name ++
      (if name.isSome && source.isNone then ["--skip-upload"] else []) ++
      flagText "--rename" (given shown params "rename") ++
      flagText "--collections" (given shown params "collections") ++
      (if isGiven params "no_restore_index" then ["--no-restore-index"] else []) ++
      (if isGiven params "drop_existing" then ["--drop-existing"] else []) ++
      (if isGiven params "load" then ["--load"] else []))

/-- The handlers by their job types. -/
def handler (type : String) : Option (Except String (List String)) :=
  if type = "create-backup" then some (runCreateBackup shown params)
  else if type = "export-backup" then some (runExportBackup shown params)
  else if type = "restore-backup" then some (runRestoreBackup shown params)
  else if type = "backup-etcd" then some (.ok ["./milvus-onprem", "backup-etcd"])
  else none

end Workers

def REPO_PATH : String := "/repo"

/-- `run_in_repo`: the commands that bash makes of the line. No process is started with a
null character. -/
def runInRepo (args : List String) : Option (List (List String)) :=
  let full := "cd " ++ quote REPO_PATH ++ " && " ++ quoteAll args
  if '\x00' ∈ full.toList then none else commands full

/-! ## The commands -/

/-- What the commands see of their host: whether the daemon runs them, the directory a path
names, the last part of a path, the backups in MinIO, and Pulsar. -/
structure Host where
  internal : Bool
  canonical : String → Option String
  baseName : String → String
  hasBackup : String → Bool
  mqType : String
  pulsarReachable : Bool

/-- A call of a command: `milvus-backup` of a version, the uploads and downloads of backups,
the etcd snapshot, and the work on the collections of the cluster. -/
inductive Call
  | milvusBackup (version : Option String) (args : List String)
  | upload (path name : String)
  | download (name path : String)
  | etcdBackup (output : String)
  | dropExisting
  | autoLoad
deriving DecidableEq

structure CreateVars where
  name : String
  collections : String
  listOnly : Bool
  strategy : String
  version : Option String

def createFlags : String → Option (FlagKind CreateVars)
  | "--name" => some (.value fun s v => { v with name := s })
  | "--collections" => some (.value fun s v => { v with collections := s })
  | "--milvus-backup-version" => some (.value fun s v => { v with version := some s })
  | "--strategy" => some (.value fun s v => { v with strategy := s })
  | "--list" => some (.switch fun v => { v with listOnly := true })
  | _ => none

/-- `^[A-Za-z0-9_]+$` and the length of a name. -/
def checkName (name : String) : Except String Unit :=
  if name ≠ "" && !name.toList.all ShellSource.isNameChar then
    .error ("--name=\"" ++ name ++ "\" must match ^[A-Za-z0-9_]+$ (letters, digits, underscore only — milvus-backup rejects hyphens, spaces, dots, and other shell metacharacters)")
  else if 100 < name.length then
    .error ("--name length " ++ toString name.length ++ " > 100; pick a shorter name (milvus-backup has its own internal limit)")
  else .ok ()

/-- An optional flag of `milvus-backup`. -/
def flagged (flag value : String) : List String := if value = "" then [] else [flag, value]

/-- `cmd_create_backup` behind its flags, where it does not post a job. -/
def createBackup (h : Host) (v : CreateVars) : Except String (List Call) := do
  checkName v.name
  if v.listOnly then .ok [.milvusBackup v.version ["list"]]
  else if v.name = "" then .error "--name is required (or use --list)"
  else if h.mqType = "pulsar" && v.strategy ≠ "skip_flush" && v.strategy ≠ "meta_only" && !h.pulsarReachable then
    .error "aborting"
  else .ok [.milvusBackup v.version
    (["create", "-n", v.name] ++ flagged "--colls" v.collections ++ flagged "--strategy" v.strategy)]

structure ExportVars where
  name : String
  toPath : String

def exportFlags : String → Option (FlagKind ExportVars)
  | "--name" => some (.value fun s v => { v with name := s })
  | "--to" => some (.value fun s v => { v with toPath := s })
  | _ => none

/-- `cmd_export_backup` behind its flags. -/
def exportBackup (h : Host) (v : ExportVars) : Except String (List Call) :=
  if v.name = "" then .error "--name is required"
  else if v.toPath = "" then .error "--to is required"
  else if !h.hasBackup v.name then
    .error ("backup '" ++ v.name ++ "' not found in MinIO. Run 'milvus-onprem create-backup --list' to see available backups.")
  else .ok [.download v.name v.toPath]

structure RestoreVars where
  fromPath : String
  name : String
  renamePairs : String
  collectionsFilter : String
  version : Option String
  skipUpload : Bool
  restoreIndex : Bool
  dropExisting : Bool
  autoLoad : Bool
  versionOnly : Bool

def restoreFlags : String → Option (FlagKind RestoreVars)
  | "--from" => some (.value fun s v => { v with fromPath := s })
  | "--name" => some (.value fun s v => { v with name := s })
  | "--rename" => some (.value fun s v => { v with renamePairs := s })
  | "--collections" => some (.value fun s v => { v with collectionsFilter := s })
  | "--milvus-backup-version" => some (.value fun s v => { v with version := some s })
  | "--skip-upload" => some (.switch fun v => { v with skipUpload := true })
  | "--no-restore-index" => some (.switch fun v => { v with restoreIndex := false })
  | "--drop-existing" => some (.switch fun v => { v with dropExisting := true })
  | "--load" => some (.switch fun v => { v with autoLoad := true })
  | "--show-cached" => some (.switch fun v => { v with versionOnly := true })
  | _ => none

def restoreArgs (v : RestoreVars) (name : String) : List String :=
  ["restore", "-n", name] ++ (if v.restoreIndex then ["--rebuild_index"] else []) ++
    flagged "--rename" v.renamePairs ++ flagged "--filter" v.collectionsFilter

/-- The restore of a backup that is in MinIO. -/
def restoreCalls (v : RestoreVars) (name : String) : List Call :=
  (if v.dropExisting then [Call.dropExisting] else []) ++ [Call.milvusBackup v.version (restoreArgs v name)] ++
    (if v.autoLoad then [Call.autoLoad] else [])

/-- The directory that an operator names. -/
def directory (h : Host) (path : String) : Except String String :=
  match h.canonical path with
  | none => .error (path ++ " does not exist or isn't a directory")
  | some p => .ok p

/-- The name of a backup is the one of its directory if no other is given. -/
def resolveName (h : Host) (v : RestoreVars) (path : String) : String := if v.name = "" then h.baseName path else v.name

/-- `cmd_restore_backup` behind its flags, where it does not post a job. -/
def restoreBackup (h : Host) (v : RestoreVars) : Except String (List Call) :=
  if v.versionOnly then .ok []
  else if v.skipUpload then
    if v.name = "" then .error "--name required when --skip-upload (the data is already in MinIO)"
    else .ok (restoreCalls v v.name)
  else if v.fromPath = "" then .error "--from is required (or use --skip-upload --name)"
  else (if h.internal then .ok v.fromPath else directory h v.fromPath).map fun path =>
    .upload path (resolveName h v path) :: restoreCalls v (resolveName h v path)

def backupEtcdFlags : String → Option (FlagKind String)
  | "--output" => some (.value fun s _ => s)
  | _ => none

/-- A command with its flags. -/
def command {V : Type} (flags : String → Option (FlagKind V)) (start : V) (run : V → Except String (List Call))
    (args : List String) : Except String (List Call) :=
  match parse flags start args with
  | .vars v => run v
  | .help => .ok []
  | .unknown arg => .error ("unknown flag: " ++ arg)
  | .unbound => .error "$2: unbound variable"

def createStart : CreateVars := ⟨"", "", false, "", none⟩

def restoreStart : RestoreVars := ⟨"", "", "", "", none, false, true, false, false, false⟩

/-- `main` -/
def main (h : Host) (cmd : String) (args : List String) : Option (Except String (List Call)) :=
  if cmd = "create-backup" then some (command createFlags createStart (createBackup h) args)
  else if cmd = "export-backup" then some (command exportFlags ⟨"", ""⟩ (exportBackup h) args)
  else if cmd = "restore-backup" then some (command restoreFlags restoreStart (restoreBackup h) args)
  else if cmd = "backup-etcd" then some (command backupEtcdFlags "" (fun output => .ok [.etcdBackup output]) args)
  else none

/-- Bash runs the commands of a worker in the repository. -/
def bash (h : Host) : List (List String) → Option (Except String (List Call))
  | [["cd", "/repo"], "./milvus-onprem" :: cmd :: args] => main h cmd args
  | _ => none

/-- A job of the daemon on a host, by its type and its parameters. -/
def runJob (shown : Json → String) (h : Host) (type : String) (params : List (String × Json)) :
    Option (Except String (List Call)) :=
  match handler shown params type with
  | none => none
  | some (.error e) => some (.error e)
  | some (.ok args) => (runInRepo args).bind (bash h)

/-! ## The flags of a worker -/

theorem parse_create (name strategy collections version : Option String) :
    parse createFlags createStart (flagText "--name" name ++ (flagText "--strategy" strategy ++
      (flagText "--collections" collections ++ flagText "--milvus-backup-version" version))) =
      .vars ⟨name.getD "", collections.getD "", false, strategy.getD "", version⟩ := by
  have hversion : ∀ v : CreateVars, parse createFlags v (flagText "--milvus-backup-version" version) =
      .vars (version.elim v fun s => { v with version := some s }) := by
    intro v
    rw [← List.append_nil (flagText _ _), parse_optional (by decide) rfl]
    rfl
  rw [@parse_field _ createFlags _ "--name" _ CreateVars.name (by decide) rfl fun v => rfl,
    @parse_field _ createFlags _ "--strategy" _ CreateVars.strategy (by decide) rfl fun v => rfl,
    @parse_field _ createFlags _ "--collections" _ CreateVars.collections (by decide) rfl fun v => rfl, hversion]
  cases version <;> rfl

theorem parse_restore (source name renamePairs collections : Option String) (skip noIndex drop load : Bool) :
    parse restoreFlags restoreStart (flagText "--from" source ++ (flagText "--name" name ++
      ((if skip then ["--skip-upload"] else []) ++ (flagText "--rename" renamePairs ++
        (flagText "--collections" collections ++ ((if noIndex then ["--no-restore-index"] else []) ++
          ((if drop then ["--drop-existing"] else []) ++ (if load then ["--load"] else [])))))))) =
      .vars ⟨source.getD "", name.getD "", renamePairs.getD "", collections.getD "", none, skip, !noIndex, drop, load,
        false⟩ := by
  have hload : ∀ v : RestoreVars, parse restoreFlags v (if load then ["--load"] else []) =
      .vars (if load then { v with autoLoad := true } else v) := by
    intro v
    rw [← List.append_nil (if load then _ else _), parse_optionalSwitch (by decide) (by decide) rfl]
    rfl
  rw [@parse_field _ restoreFlags _ "--from" _ RestoreVars.fromPath (by decide) rfl fun v => rfl,
    @parse_field _ restoreFlags _ "--name" _ RestoreVars.name (by decide) rfl fun v => rfl,
    parse_optionalSwitch (by decide) (by decide) rfl,
    @parse_field _ restoreFlags _ "--rename" _ RestoreVars.renamePairs (by decide) rfl fun v => rfl,
    @parse_field _ restoreFlags _ "--collections" _ RestoreVars.collectionsFilter (by decide) rfl fun v => rfl,
    parse_optionalSwitch (by decide) (by decide) rfl, parse_optionalSwitch (by decide) (by decide) rfl, hload]
  cases skip <;> cases noIndex <;> cases drop <;> cases load <;> rfl

/-! ## What a job runs -/

/-- Bash changes to the repository and runs the words of the worker. -/
theorem bash_words (h : Host) {cmd : String} {words : List String}
    (hnull : ∀ a ∈ "./milvus-onprem" :: cmd :: words, '\x00' ∉ a.toList) :
    (runInRepo ("./milvus-onprem" :: cmd :: words)).bind (bash h) = main h cmd words := by
  have hcd : "cd " ++ quote REPO_PATH = quoteAll ["cd", "/repo"] := by decide
  have hline : '\x00' ∉ (quoteAll ["cd", "/repo"] ++ " && " ++ quoteAll ("./milvus-onprem" :: cmd :: words)).toList := by
    simp only [String.toList_append, List.mem_append, not_or]
    refine ⟨⟨by decide, by decide⟩, fun hmem => ?_⟩
    obtain ⟨a, ha, hc⟩ := mem_quoteAll (by decide) (by decide) (by decide) hmem
    exact hnull a ha hc
  have hcommand : isCommand ("./milvus-onprem" :: cmd :: words) = true := by
    rw [isCommand]
    decide
  simp only [runInRepo, hcd]
  rw [if_neg hline, commands_quoteAll (by decide) hcommand]
  rfl

section Jobs

variable {shown : Json → String} {params : List (String × Json)}

/-- The parameters that a worker writes as texts. -/
def textKeys : List String := ["name", "from", "to", "strategy", "collections", "milvus_backup_version", "rename"]

/-- All that is asked of the parameters: no process is started with a null character. -/
def NoNull (shown : Json → String) (params : List (String × Json)) : Prop :=
  ∀ key ∈ textKeys, ∀ s, given shown params key = some s → '\x00' ∉ s.toList

theorem null_flagText (hnull : NoNull shown params) {name key : String} (hkey : key ∈ textKeys)
    (hname : '\x00' ∉ name.toList) : ∀ a ∈ flagText name (given shown params key), '\x00' ∉ a.toList := by
  intro a ha hc
  unfold flagText at ha
  cases hgiven : given shown params key with
  | none => simp [hgiven] at ha
  | some s =>
      rw [hgiven, Option.map_some, Option.toList_some, List.mem_singleton] at ha
      subst ha
      simp only [String.toList_append, List.mem_append] at hc
      rcases hc with (hc | hc) | hc
      · exact hname hc
      · revert hc
        decide
      · exact hnull key hkey s hgiven hc

/-- A job makes a backup as the command does with the texts of its parameters as the values
of the flags. -/
theorem create_job (h : Host) (hnull : NoNull shown params) :
    runJob shown h "create-backup" params =
      some ((given shown params "name").elim (.error "create-backup requires a 'name' param") fun name =>
        createBackup h ⟨name, (given shown params "collections").getD "", false,
          (given shown params "strategy").getD "", given shown params "milvus_backup_version"⟩) := by
  have htexts : ∀ {name key : String}, key ∈ textKeys → '\x00' ∉ name.toList →
      ∀ a ∈ flagText name (given shown params key), '\x00' ∉ a.toList := null_flagText hnull
  cases hname : given shown params "name" with
  | none =>
      simp only [runJob, handler, if_pos, runCreateBackup, hname]
      rfl
  | some name =>
      simp only [runJob, handler, if_pos, runCreateBackup, hname, List.append_assoc, List.cons_append, List.nil_append]
      rw [bash_words h, ← hname]
      · simp only [main, if_pos, command]
        rw [parse_create, hname]
        rfl
      · rw [← hname]
        simp only [List.forall_mem_cons, List.forall_mem_append]
        exact ⟨by decide, by decide, htexts (by decide) (by decide), htexts (by decide) (by decide),
          htexts (by decide) (by decide), htexts (by decide) (by decide)⟩

/-- A job restores a backup as the command does with the texts of its parameters, and it
skips the upload of a backup that it has the name of and no directory. -/
theorem restore_job (h : Host) (hnull : NoNull shown params) :
    runJob shown h "restore-backup" params =
      some (if (given shown params "from").isNone && (given shown params "name").isNone then
          .error "restore-backup requires either 'from' or 'name'"
        else restoreBackup h ⟨(given shown params "from").getD "", (given shown params "name").getD "",
          (given shown params "rename").getD "", (given shown params "collections").getD "", none,
          (given shown params "name").isSome && (given shown params "from").isNone,
          !isGiven params "no_restore_index", isGiven params "drop_existing", isGiven params "load", false⟩) := by
  have htexts : ∀ {name key : String}, key ∈ textKeys → '\x00' ∉ name.toList →
      ∀ a ∈ flagText name (given shown params key), '\x00' ∉ a.toList := null_flagText hnull
  have hswitch : ∀ (b : Bool) {name : String}, '\x00' ∉ name.toList →
      ∀ a ∈ if b then [name] else [], '\x00' ∉ a.toList := by
    intro b name hname a ha
    cases b with
    | false => cases ha
    | true => rwa [List.mem_singleton.mp ha]
  have htype : ¬("restore-backup" = "create-backup") ∧ ¬("restore-backup" = "export-backup") := by decide
  simp only [runJob, handler, if_pos, if_neg htype.1, if_neg htype.2, runRestoreBackup]
  by_cases hsource : ((given shown params "from").isNone && (given shown params "name").isNone) = true
  · rw [if_pos hsource, if_pos hsource]
  · rw [if_neg hsource, if_neg hsource]
    simp only [List.append_assoc, List.cons_append, List.nil_append]
    rw [bash_words h]
    · simp only [main, if_pos, if_neg htype.1, if_neg htype.2, command]
      rw [parse_restore]
    · simp only [List.forall_mem_cons, List.forall_mem_append]
      exact ⟨by decide, by decide, htexts (by decide) (by decide), htexts (by decide) (by decide),
        hswitch _ (by decide), htexts (by decide) (by decide), htexts (by decide) (by decide), hswitch _ (by decide),
        hswitch _ (by decide), hswitch _ (by decide)⟩

end Jobs

/-! ## Parameters with quotes -/

def plainText : Json → String := fun _ => "None"

def leaderHost : Host := ⟨true, fun _ => none, fun path => path, fun _ => false, "woodpecker", false⟩

/-- Every text of a list of parameters is free of null characters if each field is. -/
theorem noNull_of_mem {shown : Json → String} {params : List (String × Json)}
    (h : ∀ e ∈ params, e.1 ∈ textKeys → e.2 = .null ∨ ∃ s, e.2 = .str s ∧ '\x00' ∉ s.toList) : NoNull shown params := by
  intro key hkey s hs
  obtain ⟨j, hj, rfl⟩ := Option.map_eq_some_iff.mp hs
  obtain ⟨hfield, htruthy⟩ := Option.filter_eq_some_iff.mp hj
  rcases h _ (Assignments.mem_of_last hfield) hkey with hnull | ⟨s, hs, hnone⟩
  · obtain rfl : j = .null := hnull
    cases htruthy
  · obtain rfl : j = .str s := hs
    exact hnone

def quotedParams : List (String × Json) :=
  [("name", .str "nightly_1"), ("collections", .str "it's; rm -rf $HOME #"), ("rename", .str "a b:\n--load"),
    ("drop_existing", .bool true)]

theorem noNull_quotedParams : NoNull plainText quotedParams := by
  refine noNull_of_mem fun e he hkey => ?_
  simp only [quotedParams, List.mem_cons, List.not_mem_nil, or_false] at he
  rcases he with rfl | rfl | rfl | rfl
  · exact .inr ⟨_, rfl, by decide⟩
  · exact .inr ⟨_, rfl, by decide⟩
  · exact .inr ⟨_, rfl, by decide⟩
  · exact absurd hkey (by decide)

theorem create_job_quoted : runJob plainText leaderHost "create-backup" quotedParams =
    some (.ok [.milvusBackup none ["create", "-n", "nightly_1", "--colls", "it's; rm -rf $HOME #"]]) :=
  (create_job leaderHost noNull_quotedParams).trans (by decide)

theorem restore_job_quoted : runJob plainText leaderHost "restore-backup" quotedParams =
    some (.ok [.dropExisting, .milvusBackup none ["restore", "-n", "nightly_1", "--rebuild_index", "--rename",
      "a b:\n--load", "--filter", "it's; rm -rf $HOME #"]]) :=
  (restore_job leaderHost noNull_quotedParams).trans (by decide)

/-! ## The commands in distributed mode -/

/-- No character has a meaning of its own in the literal `'''…'''`, and none is null, as in
any argument of a process. -/
def standsForItself (s : String) : Bool :=
  s.toList.all fun c => c ≠ '\'' && c ≠ '\\' && c ≠ '\r' && c ≠ '\x00'

/-- What Python reads in `'''…'''`, where the text stands for itself. -/
def pythonText (s : String) : Option String := if standsForItself s then some s else none

/-- The field of a parameter that is passed on if it is not empty. -/
def textField (key value : String) : List (String × Json) := if value = "" then [] else [(key, .str value)]

/-- What `_create_backup_via_daemon` posts. -/
def createParams (v : CreateVars) : Option (List (String × Json)) := do
  let collections ← pythonText v.collections
  let strategy ← pythonText v.strategy
  some ([("name", Json.str v.name)] ++ textField "collections" collections ++ textField "strategy" strategy)

/-- What `_restore_backup_via_daemon` posts. A name that `--skip-upload` comes without is
`None`. -/
def restoreParams (v : RestoreVars) : Option (List (String × Json)) := do
  let source ← pythonText v.fromPath
  let name ← pythonText v.name
  let renamePairs ← pythonText v.renamePairs
  let collections ← pythonText v.collectionsFilter
  some (textField "from" source ++ textField "name" name ++ textField "rename" renamePairs ++
    textField "collections" collections ++
    (if v.skipUpload && name = "" then [("name", Json.null)] else []) ++
    (if v.dropExisting then [("drop_existing", Json.bool true)] else []) ++
    (if v.autoLoad then [("load", Json.bool true)] else []) ++
    (if v.restoreIndex then [] else [("no_restore_index", Json.bool true)]))

/-- The text of a request. -/
def jobBody (type : String) (params : List (String × Json)) : String :=
  JsonText.dumps (.obj [("type", .str type), ("params", .obj params)])

/-- What `post_job` reads from the text of a request. -/
def received (body : String) : Option (String × List (String × Json)) :=
  match JsonText.loads body with
  | some (.obj fields) =>
      match Json.field "type" fields, Json.field "params" fields with
      | some (.str type), some (.obj params) => some (type, params)
      | some (.str type), none => some (type, [])
      | _, _ => none
  | _ => none

/-- A posted job is run on the host of the leader. -/
def postJob (shown : Json → String) (leader : Host) (body : String) : Option (Except String (List Call)) :=
  (received body).bind fun job => runJob shown leader job.1 job.2

/-- `cmd_create_backup` behind its flags in distributed mode, up to the request. -/
def createViaDaemon (h : Host) (v : CreateVars) : Except String (Option String) := do
  checkName v.name
  if v.name = "" then .error "--name is required"
  else if h.hasBackup v.name then
    .error ("--name=\"" ++ v.name ++ "\" already exists in MinIO at milvus-bucket/backup/" ++ v.name ++ "/. Pick a different name, or remove the existing one with: docker exec milvus-minio mc rm --recursive --force local/milvus-bucket/backup/" ++ v.name)
  else .ok ((createParams v).map (jobBody "create-backup"))

/-- `cmd_restore_backup` behind its flags in distributed mode: the upload on the host of the
operator, and the request. -/
def restoreViaDaemon (h : Host) (v : RestoreVars) : Except String (List Call × Option String) :=
  if v.skipUpload = false ∧ v.fromPath ≠ "" then
    (directory h v.fromPath).map fun path => ([.upload path (resolveName h v path)],
      (restoreParams { v with fromPath := "", name := resolveName h v path, skipUpload := true }).map
        (jobBody "restore-backup"))
  else .ok ([], (restoreParams v).map (jobBody "restore-backup"))

/-! ## Both ways agree -/

theorem pythonText_eq {s t : String} (h : pythonText s = some t) : t = s ∧ '\x00' ∉ t.toList := by
  unfold pythonText at h
  split_ifs at h with hplain
  cases h
  refine ⟨rfl, fun hmem => ?_⟩
  exact absurd (List.all_eq_true.mp hplain _ hmem) (by decide)

theorem received_jobBody (type : String) (params : List (String × Json)) :
    received (jobBody type params) = some (type, params) := by
  rw [received, jobBody, JsonText.loads_dumps]
  rfl

/-- The lookup of a field takes the last part of a list that has it. -/
theorem field_append (key : String) (xs ys : List (String × Json)) :
    Json.field key (xs ++ ys) = (Json.field key ys).or (Json.field key xs) := Assignments.last_append xs ys

theorem field_cons (key name : String) (j : Json) (rest : List (String × Json)) :
    Json.field key ((name, j) :: rest) = (Json.field key rest).or (if name = key then some j else none) :=
  Assignments.last_cons _ rest

theorem field_singleton (key name : String) (j : Json) :
    Json.field key [(name, j)] = if name = key then some j else none := Assignments.last_singleton _

theorem field_textField (key name value : String) :
    Json.field key (textField name value) = if name = key ∧ value ≠ "" then some (.str value) else none := by
  unfold textField
  split_ifs with h hboth hboth
  · exact absurd h hboth.2
  · rfl
  · rw [field_singleton, if_pos hboth.1]
  · rw [field_singleton, if_neg fun hname => hboth ⟨hname, h⟩]

theorem field_switch (key name : String) (on : Prop) [Decidable on] (j : Json) :
    Json.field key (if on then [(name, j)] else []) = if name = key ∧ on then some j else none := by
  by_cases h : on
  · simp [h, field_singleton]
  · simp [h, Json.field]

/-- A text that is passed on if it is not empty. -/
def nonEmpty (s : String) : Option String := if s = "" then none else some s

theorem getD_nonEmpty (s : String) : (nonEmpty s).getD "" = s := by
  unfold nonEmpty
  split_ifs with h
  · exact h.symm
  · rfl

section Posted

variable {shown : Json → String} {params : List (String × Json)}

theorem given_none {key : String} (h : Json.field key params = none) : given shown params key = none := by
  rw [given, h]
  rfl

theorem given_text {key s : String} (h : Json.field key params = if s = "" then none else some (.str s)) :
    given shown params key = nonEmpty s := by
  rw [given, h, nonEmpty]
  split_ifs with hempty
  · rfl
  · simp [Json.truthy, hempty, formatted]

/-- What a worker reads in the parameters of the command. -/
theorem given_create {v : CreateVars} (hname : v.name ≠ "") (h : createParams v = some params) :
    given shown params "name" = some v.name ∧ given shown params "collections" = nonEmpty v.collections ∧
      given shown params "strategy" = nonEmpty v.strategy ∧ given shown params "milvus_backup_version" = none := by
  simp only [createParams, Option.bind_eq_bind, Option.bind_eq_some_iff, Option.some.injEq] at h
  obtain ⟨collections, hcollections, strategy, hstrategy, rfl⟩ := h
  obtain ⟨rfl, -⟩ := pythonText_eq hcollections
  obtain ⟨rfl, -⟩ := pythonText_eq hstrategy
  have hown : nonEmpty v.name = some v.name := if_neg hname
  rw [← hown]
  refine ⟨given_text ?_, given_text ?_, given_text ?_, given_none ?_⟩
  · simp [field_append, field_cons, field_textField, hname]
  · simp [field_append, field_cons, field_textField]
  · simp [field_append, field_cons, field_textField]
  · simp [field_append, field_cons, field_textField]

theorem mem_textField {key value : String} {e : String × Json} (h : e ∈ textField key value) : e = (key, .str value) := by
  unfold textField at h
  split_ifs at h
  · cases h
  · exact List.mem_singleton.mp h

theorem checkName_null {name : String} (h : checkName name = .ok ()) : '\x00' ∉ name.toList := by
  unfold checkName at h
  split_ifs at h with hchars
  intro hmem
  have hall : name.toList.all ShellSource.isNameChar = true := by
    by_cases hname : name = ""
    · rw [hname]
      rfl
    · simpa [hname] using hchars
  exact absurd (List.all_eq_true.mp hall _ hmem) (by decide)

theorem noNull_create {v : CreateVars} (hcheck : checkName v.name = .ok ()) (h : createParams v = some params) :
    NoNull shown params := by
  simp only [createParams, Option.bind_eq_bind, Option.bind_eq_some_iff, Option.some.injEq] at h
  obtain ⟨collections, hcollections, strategy, hstrategy, rfl⟩ := h
  refine noNull_of_mem fun e he _ => .inr ?_
  simp only [List.mem_append, List.mem_singleton] at he
  rcases he with (rfl | he) | he
  · exact ⟨v.name, rfl, checkName_null hcheck⟩
  · exact ⟨collections, by rw [mem_textField he], (pythonText_eq hcollections).2⟩
  · exact ⟨strategy, by rw [mem_textField he], (pythonText_eq hstrategy).2⟩

end Posted

/-- The values that `create-backup` writes into a literal stand for themselves. -/
def CreateVars.Literal (v : CreateVars) : Prop :=
  standsForItself v.collections = true ∧ standsForItself v.strategy = true

theorem createParams_literal {v : CreateVars} (h : v.Literal) : ∃ params, createParams v = some params := by
  simp only [createParams, pythonText, h.1, h.2, if_true]
  exact ⟨_, rfl⟩

/-- Where the command accepts the name of a new backup it posts a job, and the job does on
the host of the leader what the command would do there, but for the version of
`milvus-backup`, which is not passed on. -/
theorem create_agrees (shown : Json → String) {h : Host} (leader : Host) {v : CreateVars}
    (hliteral : v.Literal) (hlist : v.listOnly = false) (hcheck : checkName v.name = .ok ())
    (hname : v.name ≠ "") (hnew : h.hasBackup v.name = false) :
    ∃ body, createViaDaemon h v = .ok (some body) ∧
      postJob shown leader body = some (createBackup leader { v with version := none }) := by
  obtain ⟨params, hparams⟩ := createParams_literal hliteral
  refine ⟨jobBody "create-backup" params, ?_, ?_⟩
  · rw [createViaDaemon, hcheck]
    change (if v.name = "" then _ else if h.hasBackup v.name = true then _ else _) = _
    rw [if_neg hname, if_neg (by simp [hnew]), hparams]
    rfl
  · obtain ⟨hgiven, hcollections, hstrategy, hversion⟩ := @given_create shown _ _ hname hparams
    rw [postJob, received_jobBody, Option.bind_some, create_job leader (noNull_create hcheck hparams), hgiven,
      hcollections, hstrategy, hversion, getD_nonEmpty, getD_nonEmpty, ← hlist]
    rfl

/-- What a worker reads in the parameters of a restore. -/
theorem given_restore {shown : Json → String} {v : RestoreVars} {params : List (String × Json)}
    (h : restoreParams v = some params) :
    given shown params "from" = nonEmpty v.fromPath ∧ given shown params "name" = nonEmpty v.name ∧
      given shown params "rename" = nonEmpty v.renamePairs ∧
      given shown params "collections" = nonEmpty v.collectionsFilter ∧
      isGiven params "no_restore_index" = !v.restoreIndex ∧ isGiven params "drop_existing" = v.dropExisting ∧
      isGiven params "load" = v.autoLoad ∧ NoNull shown params := by
  simp only [restoreParams, Option.bind_eq_bind, Option.bind_eq_some_iff, Option.some.injEq] at h
  obtain ⟨source, hsource, name, hname, renamePairs, hrename, collections, hcollections, rfl⟩ := h
  obtain ⟨rfl, hsource⟩ := pythonText_eq hsource
  obtain ⟨rfl, hname⟩ := pythonText_eq hname
  obtain ⟨rfl, hrename⟩ := pythonText_eq hrename
  obtain ⟨rfl, hcollections⟩ := pythonText_eq hcollections
  have hindex : ∀ key, Json.field key (if v.restoreIndex = true then [] else [("no_restore_index", Json.bool true)]) =
      if "no_restore_index" = key ∧ v.restoreIndex = false then some (.bool true) else none := by
    intro key
    cases v.restoreIndex with
    | true => simp [Json.field]
    | false => simp [field_singleton]
  refine ⟨given_text ?_, ?_, given_text ?_, given_text ?_, ?_, ?_, ?_, noNull_of_mem fun e he hkey => ?_⟩
  · simp [field_append, field_textField, field_switch, hindex]
  · by_cases hempty : v.name = ""
    · rw [nonEmpty, if_pos hempty, given]
      simp only [field_append, field_textField, field_switch, hindex, hempty]
      cases v.skipUpload <;> rfl
    · refine given_text ?_
      simp [field_append, field_textField, field_switch, hindex, hempty]
  · simp [field_append, field_textField, field_switch, hindex]
  · simp [field_append, field_textField, field_switch, hindex]
  · simp only [isGiven, field_append, field_textField, field_switch, hindex]
    cases v.restoreIndex <;> simp [Json.truthy]
  · simp only [isGiven, field_append, field_textField, field_switch, hindex]
    cases v.dropExisting <;> simp [Json.truthy]
  · simp only [isGiven, field_append, field_textField, field_switch, hindex]
    cases v.autoLoad <;> simp [Json.truthy]
  · have hswitch : ∀ {on : Prop} [Decidable on] {key : String} {j : Json},
        e ∈ (if on then [(key, j)] else []) → e = (key, j) := by
      intro on _ key j hmem
      split_ifs at hmem
      · exact List.mem_singleton.mp hmem
      · cases hmem
    simp only [List.mem_append] at he
    rcases he with ((((((he | he) | he) | he) | he) | he) | he) | he
    · exact .inr ⟨_, by rw [mem_textField he], hsource⟩
    · exact .inr ⟨_, by rw [mem_textField he], hname⟩
    · exact .inr ⟨_, by rw [mem_textField he], hrename⟩
    · exact .inr ⟨_, by rw [mem_textField he], hcollections⟩
    · exact .inl (by rw [hswitch he])
    · rw [hswitch he] at hkey
      exact absurd hkey (by decide)
    · rw [hswitch he] at hkey
      exact absurd hkey (by decide)
    · split_ifs at he
      · cases he
      · rw [List.mem_singleton.mp he] at hkey
        exact absurd hkey (by decide)

/-- The variables with which the leader runs a restore. -/
def RestoreVars.posted (v : RestoreVars) : RestoreVars :=
  { v with version := none, skipUpload := v.name ≠ "" && v.fromPath = "", versionOnly := false }

theorem post_restore (shown : Json → String) (leader : Host) {v : RestoreVars} {params : List (String × Json)}
    (h : restoreParams v = some params) (hname : v.name ≠ "") :
    postJob shown leader (jobBody "restore-backup" params) = some (restoreBackup leader v.posted) := by
  obtain ⟨hfrom, hgiven, hrename, hcollections, hindex, hdrop, hload, hnull⟩ := @given_restore shown _ _ h
  have hisNone : ∀ s : String, (nonEmpty s).isNone = decide (s = "") := by
    intro s
    unfold nonEmpty
    split_ifs with hs <;> simp [hs]
  have hisSome : ∀ s : String, (nonEmpty s).isSome = decide (s ≠ "") := by
    intro s
    unfold nonEmpty
    split_ifs with hs <;> simp [hs]
  rw [postJob, received_jobBody, Option.bind_some, restore_job leader hnull, hfrom, hgiven, hrename, hcollections,
    hindex, hdrop, hload, hisNone, hisNone, hisSome, if_neg (by simp [hname])]
  simp only [getD_nonEmpty, Bool.not_not]
  rfl

/-- The version of `milvus-backup` is what the job loses. -/
theorem restoreCalls_posted (v : RestoreVars) (name : String) :
    restoreCalls v.posted name = restoreCalls v name ↔ v.version = none := by
  have hposted : restoreCalls v.posted name = (if v.dropExisting then [Call.dropExisting] else []) ++
      [Call.milvusBackup none (restoreArgs v name)] ++ (if v.autoLoad then [Call.autoLoad] else []) := rfl
  rw [hposted, restoreCalls, List.append_left_inj, List.append_right_inj]
  simp only [List.cons.injEq, Call.milvusBackup.injEq, and_true]
  exact eq_comm

theorem length_restoreCalls_posted (v : RestoreVars) (name : String) :
    (restoreCalls v.posted name).length = (restoreCalls v name).length := by
  simp [restoreCalls, RestoreVars.posted]

/-- A job with a name and no directory restores what is in MinIO. -/
theorem restoreBackup_named (leader : Host) {v : RestoreVars} (hname : v.name ≠ "") (hfrom : v.fromPath = "") :
    restoreBackup leader v.posted = .ok (restoreCalls v.posted v.name) := by
  have hskip : v.posted.skipUpload = true := by simp [RestoreVars.posted, hname, hfrom]
  have hnamed : v.posted.name ≠ "" := hname
  have hshow : ¬v.posted.versionOnly = true := Bool.false_ne_true
  rw [restoreBackup, if_neg hshow, if_pos hskip, if_neg hnamed]
  rfl

/-- A job with a directory uploads it from the host of the leader. -/
theorem restoreBackup_from {leader : Host} (hleader : leader.internal = true) {v : RestoreVars} (hname : v.name ≠ "")
    (hfrom : v.fromPath ≠ "") :
    restoreBackup leader v.posted = .ok (.upload v.fromPath v.name :: restoreCalls v.posted v.name) := by
  have hskip : ¬v.posted.skipUpload = true := by simp [RestoreVars.posted, hfrom]
  have hpath : v.posted.fromPath ≠ "" := hfrom
  have hresolve : resolveName leader v.posted v.fromPath = v.name := if_neg hname
  have hshow : ¬v.posted.versionOnly = true := Bool.false_ne_true
  rw [restoreBackup, if_neg hshow, if_neg hskip, if_neg hpath, if_pos hleader]
  change Except.ok (Call.upload v.fromPath (resolveName leader v.posted v.fromPath) ::
    restoreCalls v.posted (resolveName leader v.posted v.fromPath)) = _
  rw [hresolve]

/-- The values that `restore-backup` writes into a literal stand for themselves; once it has
uploaded a directory these are the last part of its path, if no name is given, and not the
path. -/
structure RestoreVars.Literal (v : RestoreVars) (h : Host) : Prop where
  source : v.skipUpload = true → standsForItself v.fromPath = true
  name : standsForItself v.name = true
  renamePairs : standsForItself v.renamePairs = true
  collections : standsForItself v.collectionsFilter = true
  base : ∀ path, h.canonical v.fromPath = some path → standsForItself (h.baseName path) = true

theorem restoreParams_literal {v : RestoreVars} (hsource : standsForItself v.fromPath = true)
    (hname : standsForItself v.name = true) (hrename : standsForItself v.renamePairs = true)
    (hcollections : standsForItself v.collectionsFilter = true) : ∃ params, restoreParams v = some params := by
  simp only [restoreParams, pythonText, hsource, hname, hrename, hcollections, if_true]
  exact ⟨_, rfl⟩

/-- A restore of a directory: the host of the operator uploads it, and the job knows only
its name. -/
theorem restore_agrees_upload (shown : Json → String) {h : Host} (leader : Host) {v : RestoreVars}
    {calls : List Call} (hstandalone : h.internal = false) (hshow : v.versionOnly = false)
    (hskip : v.skipUpload = false) (hliteral : v.Literal h)
    (hbase : ∀ path, h.canonical v.fromPath = some path → h.baseName path ≠ "")
    (hlocal : restoreBackup h v = .ok calls) :
    ∃ uploads body later, restoreViaDaemon h v = .ok (uploads, some body) ∧
      postJob shown leader body = some (.ok later) ∧ (uploads ++ later = calls ↔ v.version = none) := by
  rw [restoreBackup, if_neg (by simp [hshow]), hskip, if_neg Bool.false_ne_true] at hlocal
  have hfrom : v.fromPath ≠ "" := by
    intro hempty
    rw [if_pos hempty] at hlocal
    cases hlocal
  rw [if_neg hfrom, hstandalone, if_neg Bool.false_ne_true] at hlocal
  obtain ⟨path, hpath⟩ : ∃ path, h.canonical v.fromPath = some path := by
    cases hcanonical : h.canonical v.fromPath with
    | none =>
        rw [directory, hcanonical] at hlocal
        cases hlocal
    | some path => exact ⟨path, rfl⟩
  rw [directory, hpath] at hlocal
  cases hlocal
  have hname : resolveName h v path ≠ "" ∧ standsForItself (resolveName h v path) = true := by
    unfold resolveName
    split_ifs with hempty
    · exact ⟨hbase path hpath, hliteral.base path hpath⟩
    · exact ⟨hempty, hliteral.name⟩
  obtain ⟨params, hparams⟩ := @restoreParams_literal
    { v with fromPath := "", name := resolveName h v path, skipUpload := true } rfl hname.2
    hliteral.renamePairs hliteral.collections
  refine ⟨[.upload path (resolveName h v path)], jobBody "restore-backup" params, _, ?_,
    (post_restore shown leader hparams hname.1).trans (congrArg some (restoreBackup_named leader hname.1 rfl)), ?_⟩
  · rw [restoreViaDaemon, if_pos ⟨hskip, hfrom⟩, directory, hpath]
    change Except.ok (_, Option.map _ (restoreParams _)) = _
    rw [hparams]
    rfl
  · rw [List.singleton_append, List.cons.injEq, eq_self_iff_true, true_and]
    exact restoreCalls_posted v (resolveName h v path)

/-- A restore of what is in MinIO: the job uploads a directory all the same if one is
given. -/
theorem restore_agrees_skipped (shown : Json → String) {h leader : Host} {v : RestoreVars} {calls : List Call}
    (hleader : leader.internal = true) (hshow : v.versionOnly = false) (hskip : v.skipUpload = true)
    (hliteral : v.Literal h) (hlocal : restoreBackup h v = .ok calls) :
    ∃ body later, restoreViaDaemon h v = .ok ([], some body) ∧
      postJob shown leader body = some (.ok later) ∧ (later = calls ↔ v.version = none ∧ v.fromPath = "") := by
  rw [restoreBackup, if_neg (by simp [hshow]), hskip, if_pos rfl] at hlocal
  split_ifs at hlocal with hname
  cases hlocal
  obtain ⟨params, hparams⟩ :=
    restoreParams_literal (hliteral.source hskip) hliteral.name hliteral.renamePairs hliteral.collections
  have hposted : restoreViaDaemon h v = .ok ([], some (jobBody "restore-backup" params)) := by
    rw [restoreViaDaemon, if_neg (by simp [hskip]), hparams, Option.map_some]
  by_cases hfrom : v.fromPath = ""
  · refine ⟨_, _, hposted, (post_restore shown leader hparams hname).trans
      (congrArg some (restoreBackup_named leader hname hfrom)), ?_⟩
    simp [restoreCalls_posted, hfrom]
  · refine ⟨_, _, hposted, (post_restore shown leader hparams hname).trans
      (congrArg some (restoreBackup_from hleader hname hfrom)), ?_⟩
    simp only [hfrom, and_false, iff_false]
    intro heq
    have hlength := congrArg List.length heq
    rw [List.length_cons, length_restoreCalls_posted] at hlength
    omega

/-- Where the command restores a backup on a host of its own, the command of a cluster posts
a job that restores it too. Both make the same calls if and only if no version of
`milvus-backup` is asked for and no directory is given for an upload that is skipped. -/
theorem restore_agrees (shown : Json → String) {h leader : Host} {v : RestoreVars} {calls : List Call}
    (hstandalone : h.internal = false) (hleader : leader.internal = true) (hshow : v.versionOnly = false)
    (hliteral : v.Literal h) (hbase : ∀ path, h.canonical v.fromPath = some path → h.baseName path ≠ "")
    (hlocal : restoreBackup h v = .ok calls) :
    ∃ uploads body later, restoreViaDaemon h v = .ok (uploads, some body) ∧
      postJob shown leader body = some (.ok later) ∧
      (uploads ++ later = calls ↔ v.version = none ∧ (v.skipUpload = true → v.fromPath = "")) := by
  cases hskip : v.skipUpload with
  | false =>
      obtain ⟨uploads, body, later, hbody, hlater, hiff⟩ :=
        restore_agrees_upload shown leader hstandalone hshow hskip hliteral hbase hlocal
      exact ⟨uploads, body, later, hbody, hlater, by simpa using hiff⟩
  | true =>
      obtain ⟨body, later, hbody, hlater, hiff⟩ :=
        restore_agrees_skipped shown hleader hshow hskip hliteral hlocal
      exact ⟨[], body, later, hbody, hlater, by simpa using hiff⟩

def operatorHost : Host := ⟨false, some, fun _ => "dump_1", fun _ => false, "woodpecker", false⟩

theorem create_agrees_versioned : ∃ body,
    createViaDaemon operatorHost ⟨"nightly_1", "a,b", false, "", some "v0.5.9"⟩ = .ok (some body) ∧
      postJob plainText leaderHost body =
        some (.ok [.milvusBackup none ["create", "-n", "nightly_1", "--colls", "a,b"]]) := by
  obtain ⟨body, hbody, hjob⟩ := @create_agrees plainText operatorHost leaderHost
    ⟨"nightly_1", "a,b", false, "", some "v0.5.9"⟩ ⟨by decide, by decide⟩ rfl (by decide) (by decide) rfl
  exact ⟨body, hbody, hjob.trans (by decide)⟩

theorem restore_agrees_uploaded : ∃ uploads body later,
    restoreViaDaemon operatorHost ⟨"/tmp/dump_1", "", "", "", none, false, true, false, true, false⟩ =
      .ok (uploads, some body) ∧
    postJob plainText leaderHost body = some (.ok later) ∧
    uploads ++ later = [.upload "/tmp/dump_1" "dump_1",
      .milvusBackup none ["restore", "-n", "dump_1", "--rebuild_index"], .autoLoad] := by
  have hlocal : restoreBackup operatorHost ⟨"/tmp/dump_1", "", "", "", none, false, true, false, true, false⟩ =
      .ok [.upload "/tmp/dump_1" "dump_1", .milvusBackup none ["restore", "-n", "dump_1", "--rebuild_index"],
        .autoLoad] := by decide
  obtain ⟨uploads, body, later, hbody, hlater, hiff⟩ := @restore_agrees plainText operatorHost leaderHost _ _
    rfl rfl rfl ⟨fun _ => by decide, by decide, by decide, by decide, fun _ _ => (by decide : standsForItself "dump_1" = true)⟩
    (fun _ _ => (by decide : "dump_1" ≠ "")) hlocal
  exact ⟨uploads, body, later, hbody, hlater, hiff.mpr (by decide)⟩

end MilvusOnprem.BackupCommands
