import MilvusOnprem.EnvFile
import MilvusOnprem.VersionUpgrade

/-!
# The image tag of a peer

What the shell has for `MILVUS_IMAGE_TAG` once it has sourced a `cluster.env`
and applied the default, what the `sed` command of the upgrade makes of the file,
and the guard of `render_all` that compares the tag with the anchor in etcd.

A line of the file is blank, a comment, or one assignment, which may be indented,
exported and quoted. Expansions and quotes over several lines are left out, and
the value of a rewritten line holds no quote and no blank.
-/
namespace MilvusOnprem.ImageTag

open PythonText EnvFile VersionUpgrade

/-! ## Sourcing -/

def isBlank (c : Char) : Bool := c = ' ' || c = '\t'

/-- The rest of a line behind `export`. -/
def dropExport (cs : List Char) : List Char :=
  if "export ".toList.isPrefixOf cs || "export\t".toList.isPrefixOf cs then
    (cs.drop 7).dropWhile isBlank
  else cs

/-- The word at the start of a text without its quotes; the first argument is the
quote that is open. -/
def unquoted : Option Char → List Char → List Char
  | _, [] => []
  | none, c :: cs =>
      if isBlank c then []
      else if c = '"' ∨ c = '\'' then unquoted (some c) cs
      else c :: unquoted none cs
  | some q, c :: cs => if c = q then unquoted none cs else c :: unquoted (some q) cs

/-- What a line assigns to a variable. -/
def assigned (key : Key) (line : String) : Option String :=
  let body := dropExport (line.toList.dropWhile isBlank)
  let head := (key.text ++ "=").toList
  if head.isPrefixOf body then some (String.ofList (unquoted none (body.drop head.length))) else none

/-- The last line that assigns the tag. -/
def lastAssignment (lines : Lines) : Option String :=
  (lines.filter fun line => (assigned MILVUS_IMAGE_TAG line).isSome).getLast?

/-- `${MILVUS_IMAGE_TAG:=v2.6.11}` -/
def DEFAULT_TAG : String := "v2.6.11"

def orDefault (tag : Option String) : String :=
  match tag with
  | some tag => if tag = "" then DEFAULT_TAG else tag
  | none => DEFAULT_TAG

/-- `MILVUS_IMAGE_TAG` after `env_load`. -/
def imageTag (lines : Lines) : String :=
  orDefault ((lastAssignment lines).bind (assigned MILVUS_IMAGE_TAG))

/-- The tag in the dictionary of `_read_cluster_env`, which a joiner's file gets. -/
def copiedTag (lines : Lines) : Option String :=
  (((lines.filterMap ClusterEnv.envEntry).foldl
    (fun out kv => if kv.1 = "" then out else ClusterEnv.dictSet kv.1 kv.2 out) []).find?
      fun kv => kv.1 = MILVUS_IMAGE_TAG.text).map Prod.snd

/-- The tag that `_register_cluster_version` reads. -/
def registeredTag (lines : Lines) : Option String := (valueOf MILVUS_IMAGE_TAG lines).map strip

/-! ## The edit of the upgrade -/

def sedLine (target line : String) : String :=
  if MILVUS_IMAGE_TAG.isLine line then MILVUS_IMAGE_TAG.line target else line

/-- `sed -i 's|^MILVUS_IMAGE_TAG=.*|MILVUS_IMAGE_TAG={target}|'` -/
def sedTag (target : String) (lines : Lines) : Lines := lines.map (sedLine target)

/-- A text that stands for itself as the value of an assignment. -/
def Plain (tag : String) : Prop := tag ≠ "" ∧ unquoted none tag.toList = tag.toList

/-- The edit gives the file the tag: it rewrites the last line that assigns it, or
the tag is the target already. -/
def Rewritable (target : String) (lines : Lines) : Prop :=
  (lastAssignment lines).any MILVUS_IMAGE_TAG.isLine = true ∨ imageTag lines = target

/-! ## The guard -/

/-- What `render_all` knows besides the tag: whether `MODE` is distributed,
whether the caller is internal, whether the etcd container runs, and the output
of the probe, which is empty when the probe fails. -/
structure Probe where
  distributed : Bool
  internal : Bool
  etcdRuns : Bool
  output : List Char
deriving DecidableEq

/-- `$(… | head -1)` -/
def clusterTag (p : Probe) : List Char := p.output.takeWhile fun c => c ≠ '\n'

/-- The condition under which `render_all` dies. -/
def refuses (p : Probe) (tag : String) : Bool :=
  p.distributed && !p.internal && p.etcdRuns && (clusterTag p ≠ [] && clusterTag p ≠ tag.toList)

/-- What a probe of the anchor puts out. -/
def anchorOutput : Option String → List Char
  | some anchor => anchor.toList ++ ['\n']
  | none => []

/-! ## What the edit does -/

theorem assigned_of_isLine {line : String} (h : MILVUS_IMAGE_TAG.isLine line = true) :
    assigned MILVUS_IMAGE_TAG line = some (String.ofList
      (unquoted none (line.toList.drop (MILVUS_IMAGE_TAG.text ++ "=").toList.length))) := by
  obtain ⟨rest, hrest⟩ := List.isPrefixOf_iff_prefix.mp h
  have hbody : dropExport (line.toList.dropWhile isBlank) = line.toList := by
    rw [← hrest]
    rfl
  unfold assigned
  rw [hbody]
  exact if_pos h

theorem assigned_line {target : String} (h : Plain target) :
    assigned MILVUS_IMAGE_TAG (MILVUS_IMAGE_TAG.line target) = some target := by
  rw [assigned_of_isLine (by simp)]
  have hdrop : (MILVUS_IMAGE_TAG.line target).toList.drop
      (MILVUS_IMAGE_TAG.text ++ "=").toList.length = target.toList := by
    have happend : (MILVUS_IMAGE_TAG.line target).toList =
        (MILVUS_IMAGE_TAG.text ++ "=").toList ++ target.toList := String.toList_append
    rw [happend, List.drop_left]
  rw [hdrop, h.2, String.ofList_toList]

theorem assigned_sedLine (target line : String) :
    (assigned MILVUS_IMAGE_TAG (sedLine target line)).isSome =
      (assigned MILVUS_IMAGE_TAG line).isSome := by
  unfold sedLine
  split_ifs with hline
  · rw [assigned_of_isLine hline, assigned_of_isLine (by simp), Option.isSome_some, Option.isSome_some]
  · rfl

theorem lastAssignment_sedTag (target : String) (lines : Lines) :
    lastAssignment (sedTag target lines) = (lastAssignment lines).map (sedLine target) := by
  have hfilter : lines.filter ((fun line => (assigned MILVUS_IMAGE_TAG line).isSome) ∘ sedLine target) =
      lines.filter fun line => (assigned MILVUS_IMAGE_TAG line).isSome := by
    refine List.filter_congr fun line _ => ?_
    rw [Function.comp_apply, assigned_sedLine]
  unfold lastAssignment sedTag
  rw [List.filter_map, List.getLast?_map, hfilter]

/-- The edit gives a file the tag exactly if the file can be rewritten. -/
theorem imageTag_sedTag {target : String} (h : Plain target) (lines : Lines) :
    imageTag (sedTag target lines) = target ↔ Rewritable target lines := by
  have htarget : orDefault (some target) = target := if_neg h.1
  unfold imageTag Rewritable
  rw [lastAssignment_sedTag]
  cases hlast : lastAssignment lines with
  | none => simp [imageTag, hlast]
  | some line =>
      simp only [Option.map_some, Option.bind_some, Option.any_some, sedLine]
      cases hline : MILVUS_IMAGE_TAG.isLine line with
      | true => simp [assigned_line h, htarget]
      | false => simp [imageTag, hlast]

/-- The guard accepts the tag that the anchor holds. -/
theorem refuses_anchor {p : Probe} {tag : String} (hline : '\n' ∉ tag.toList)
    (hp : p.output = anchorOutput (some tag) ∨ p.output = []) : refuses p tag = false := by
  have hsame : clusterTag p = tag.toList ∨ clusterTag p = [] := by
    rcases hp with hp | hp
    · left
      rw [clusterTag, hp, anchorOutput, List.takeWhile_append_of_pos]
      · simp
      · intro c hc
        exact decide_eq_true fun he => hline (he ▸ hc)
    · right
      rw [clusterTag, hp]
      rfl
  rcases hsame with hsame | hsame <;> simp [refuses, hsame]

/-! ## The target of an upgrade -/

/-- A character that the shell keeps as it is. -/
def isPlain (c : Char) : Bool := !isBlank c && c ≠ '"' && c ≠ '\''

/-- A tag that every reader of the file takes as it stands. -/
def IsTag (tag : String) : Prop :=
  tag ≠ "" ∧ ∀ c ∈ tag.toList, isPlain c = true ∧ isSpace c = false

instance : DecidablePred IsTag := fun tag =>
  inferInstanceAs (Decidable (tag ≠ "" ∧ ∀ c ∈ tag.toList, isPlain c = true ∧ isSpace c = false))

theorem unquoted_plain {cs : List Char} (h : ∀ c ∈ cs, isPlain c = true) : unquoted none cs = cs := by
  induction cs with
  | nil => rfl
  | cons c cs ih =>
      have hc := h c List.mem_cons_self
      simp only [isPlain, Bool.and_eq_true, Bool.not_eq_true', decide_eq_true_eq] at hc
      rw [unquoted, if_neg (by simp [hc.1.1]), if_neg (by simp [hc.1.2, hc.2]),
        ih fun d hd => h d (List.mem_cons_of_mem c hd)]

theorem isPlain_of_digit {c : Char} (h : (decimalDigit c).isSome = true) : isPlain c = true := by
  unfold isPlain isBlank
  simp only [Bool.and_eq_true, Bool.not_eq_true', Bool.or_eq_false_iff, decide_eq_true_eq,
    decide_eq_false_iff_not]
  refine ⟨⟨⟨?_, ?_⟩, ?_⟩, ?_⟩ <;>
  · rintro rfl
    revert h
    decide

theorem isSpace_of_digit {c : Char} (h : (decimalDigit c).isSome = true) : isSpace c = false := by
  have hapart : ∀ n ∈ spaces, ∀ z ∈ decimalZeros, ¬(z ≤ n ∧ n < z + 10) := by decide +kernel
  rw [Bool.eq_false_iff]
  intro hspace
  obtain ⟨d, hd⟩ := Option.isSome_iff_exists.mp h
  obtain ⟨z, hz, hrange⟩ := List.exists_of_findSome?_eq_some hd
  have hmem : c.toNat ∈ spaces := List.contains_iff_mem.mp hspace
  rw [if_neg (hapart _ hmem z hz)] at hrange
  cases hrange

/-- What stands in a version: the leading letter, dots and digits. -/
theorem isVersion_chars {target : String} (h : isVersion target = true) :
    dropFinalNewline target.toList ≠ [] ∧
      ∀ c ∈ dropFinalNewline target.toList, c = 'v' ∨ c = '.' ∨ (decimalDigit c).isSome = true := by
  unfold isVersion at h
  split at h
  · next rest htarget =>
      simp only [Bool.and_eq_true, List.all_eq_true] at h
      rw [htarget]
      refine ⟨by simp, fun c hc => ?_⟩
      rcases List.mem_cons.mp hc with rfl | hc
      · exact .inl rfl
      · by_cases hdot : c = '.'
        · exact .inr (.inl hdot)
        · obtain ⟨part, hpart, hmem⟩ := exists_part_of_mem hc hdot
          obtain ⟨n, hn⟩ := Option.isSome_iff_exists.mp (h.2 part hpart)
          exact .inr (.inr (parseDigits_chars hn c hmem))
  · cases h

/-- A version that can be written on one line is a tag. -/
theorem isTag_of_isVersion {target : String} (h : isVersion target = true)
    (hline : '\n' ∉ target.toList) : IsTag target := by
  have hdrop : dropFinalNewline target.toList = target.toList := by
    rw [dropFinalNewline, if_neg fun hl => hline (List.mem_of_getLast? hl)]
  obtain ⟨hne, hchars⟩ := isVersion_chars h
  rw [hdrop] at hne hchars
  refine ⟨fun he => hne (by rw [he]; rfl), fun c hc => ?_⟩
  rcases hchars c hc with rfl | rfl | hdigit
  · decide
  · decide
  · exact ⟨isPlain_of_digit hdigit, isSpace_of_digit hdigit⟩

theorem IsTag.plain {tag : String} (h : IsTag tag) : Plain tag :=
  ⟨h.1, unquoted_plain fun c hc => (h.2 c hc).1⟩

/-- A version that can be written on one line stands for itself. -/
theorem plain_of_isVersion {target : String} (h : isVersion target = true)
    (hline : '\n' ∉ target.toList) : Plain target := (isTag_of_isVersion h hline).plain

/-! ## A file with one line for the tag -/

theorem imageTag_line {tag : String} (h : IsTag tag) : imageTag [MILVUS_IMAGE_TAG.line tag] = tag := by
  have hassigned := assigned_line h.plain
  have hlast : lastAssignment [MILVUS_IMAGE_TAG.line tag] = some (MILVUS_IMAGE_TAG.line tag) := by
    simp [lastAssignment, hassigned]
  rw [imageTag, hlast, Option.bind_some, hassigned]
  exact if_neg h.1

theorem sedTag_line (target tag : String) :
    sedTag target [MILVUS_IMAGE_TAG.line tag] = [MILVUS_IMAGE_TAG.line target] := by
  simp [sedTag, sedLine]

theorem registeredTag_line {tag : String} (h : IsTag tag) :
    registeredTag [MILVUS_IMAGE_TAG.line tag] = some tag := by
  have hstrip : strip tag = tag := stripChars_eq_self fun c hc => (h.2 c hc).2
  simp [registeredTag, valueOf, hstrip]

theorem copiedTag_line {tag : String} (h : IsTag tag) :
    copiedTag [MILVUS_IMAGE_TAG.line tag] = some tag := by
  have hentry : ClusterEnv.envEntry (MILVUS_IMAGE_TAG.line tag) = some (MILVUS_IMAGE_TAG.text, tag) := by
    refine envEntry_line (by decide) fun c hc => ?_
    obtain ⟨hplain, hspace⟩ := h.2 c hc
    simp only [isPlain, Bool.and_eq_true] at hplain
    simp only [isKept, Bool.and_eq_true, Bool.not_eq_true']
    exact ⟨⟨hspace, hplain.1.2⟩, hplain.2⟩
  have hname : MILVUS_IMAGE_TAG.text ≠ "" := by decide
  simp [copiedTag, hentry, hname, ClusterEnv.dictSet]

example : imageTag ["# tag", " export MILVUS_IMAGE_TAG=\"v2.5.4\" # old"] = "v2.5.4" := by
  decide +kernel

end MilvusOnprem.ImageTag
