import MilvusOnprem.EnvEdits
import MilvusOnprem.GuardedRuns

/-!
# Updates of one cluster.env that overlap

The daemon of a peer rewrites its `cluster.env` from several threads. Every
`_upsert_kv` reads the file, opens one temporary file that all threads share and
empties it, writes the new text in pieces and renames the temporary file. The
upgrade runs `sed -i`, which renames a temporary file of its own. The
topology handler and the routes that recreate or upgrade share a lock; the host
sync and the token rotation hold none. Each of these is a step, so updates overlap
in any order. A read of the file is one step.

Files are inodes, because a thread goes on writing to the file it opened after
another thread has renamed it. The last line of a file may lack its newline. The
finished updates are recorded for the statements only.
-/
namespace MilvusOnprem.ConcurrentUpdates

open EnvFile EnvText EnvEdits GuardedRuns

/-! ## Updates -/

/-- The paths of the daemon that write to the file. -/
inductive Path where
  | peerIps
  | peerNames
  | pulsarHost
  | clusterToken
  | imageTag
deriving DecidableEq, Repr

def Path.key : Path → Key
  | .peerIps => PEER_IPS
  | .peerNames => PEER_NAMES
  | .pulsarHost => PULSAR_HOST
  | .clusterToken => CLUSTER_TOKEN
  | .imageTag => MILVUS_IMAGE_TAG

structure Update where
  path : Path
  value : { s : String // OneLine s }
  locked : Bool
deriving DecidableEq

namespace Update

def key (u : Update) : Key := u.path.key

/-- `s|^MILVUS_IMAGE_TAG=.*|MILVUS_IMAGE_TAG={target}|` on one line. -/
def sedLine (u : Update) (line : String) : String :=
  if u.key.isLine line then u.key.line u.value.1 else line

/-- The text an update makes of the text it reads. -/
def rewrite (u : Update) (text : List Char) : List Char :=
  match u.path with
  | .imageTag => charsOf (((text.splitOn '\n').map String.ofList).map u.sedLine)
  | _ => (upsertKv u.key.text u.value.1 (String.ofList text)).toList

/-- The update has a line of its own: the upgrade needs a line of its key, the
others append one where the last line ends. -/
def fits (u : Update) (text : List Char) : Bool :=
  match u.path with
  | .imageTag => (textLines (String.ofList text)).any u.key.isLine
  | _ => EnvEdits.fits u.key (String.ofList text)

end Update

/-! ## The daemon's threads -/

/-- The files: the contents of the inodes, the inode of `cluster.env`, the inode
of the shared temporary file if it exists, and the first unused inode. -/
structure Disk where
  inodes : ℕ → List Char
  env : ℕ
  tmp : Option ℕ
  fresh : ℕ

def Disk.text (d : Disk) : List Char := d.inodes d.env

inductive Pc where
  | waiting
  | edited (text : List Char)
  | writing (inode : ℕ) (text : List Char) (offset : ℕ)
  | done
  | failed
deriving DecidableEq, Repr

structure Slot where
  update : Update
  pc : Pc
deriving DecidableEq

structure World where
  disk : Disk
  slots : OrderedMap ℕ Slot
  finished : List Update

inductive Act where
  | start (id : ℕ) (u : Update)
  | read (id : ℕ)
  | create (id : ℕ)
  | write (id n : ℕ)
  | replace (id : ℕ)
deriving DecidableEq

/-- An update between its read and its rename. -/
def Pc.active : Pc → Bool
  | .edited _ | .writing _ _ _ => true
  | .waiting | .done | .failed => false

/-- The handler lock is free. -/
def lockFree (slots : OrderedMap ℕ Slot) : Bool :=
  slots.entries.all fun e => !(e.2.update.locked && e.2.pc.active)

/-- A write at an offset; a hole is filled with zeros. -/
def overlay (old : List Char) (offset : ℕ) (piece : List Char) : List Char :=
  old.take offset ++ List.replicate (offset - old.length) '\x00' ++ piece ++
    old.drop (offset + piece.length)

def World.goto (w : World) (id : ℕ) (slot : Slot) (pc : Pc) : World :=
  { w with slots := w.slots.put id { slot with pc := pc } }

def step (w : World) : Act → Option World
  | .start id u =>
      if w.slots.get id = none then some { w with slots := w.slots.put id ⟨u, .waiting⟩ } else none
  | .read id =>
      match w.slots.get id with
      | some slot =>
          if slot.pc = .waiting ∧ (slot.update.locked = true → lockFree w.slots = true) then
            some (w.goto id slot (.edited (slot.update.rewrite w.disk.text)))
          else none
      | none => none
  | .create id =>
      match w.slots.get id with
      | some slot =>
          match slot.pc with
          | .edited text =>
              if slot.update.path = .imageTag then none
              else
                -- `open(tmp, "w")`: an existing file is emptied
                let inode := w.disk.tmp.getD w.disk.fresh
                some { w.goto id slot (.writing inode text 0) with
                  disk := { w.disk with
                    inodes := Function.update w.disk.inodes inode []
                    tmp := some inode
                    fresh := if w.disk.tmp = none then w.disk.fresh + 1 else w.disk.fresh } }
          | _ => none
      | none => none
  | .write id n =>
      match w.slots.get id with
      | some slot =>
          match slot.pc with
          | .writing inode text offset =>
              let piece := (text.drop offset).take n
              some { w.goto id slot (.writing inode text (offset + piece.length)) with
                disk := { w.disk with
                  inodes := Function.update w.disk.inodes inode
                    (overlay (w.disk.inodes inode) offset piece) } }
          | _ => none
      | none => none
  | .replace id =>
      match w.slots.get id with
      | some slot =>
          match slot.pc with
          | .edited text =>
              if slot.update.path = .imageTag then
                some { w.goto id slot .done with
                  disk := { w.disk with
                    inodes := Function.update w.disk.inodes w.disk.fresh text
                    env := w.disk.fresh
                    fresh := w.disk.fresh + 1 }
                  finished := w.finished ++ [slot.update] }
              else none
          | .writing _ text offset =>
              if text.length ≤ offset then
                match w.disk.tmp with
                | some inode =>
                    some { w.goto id slot .done with
                      disk := { w.disk with env := inode, tmp := none }
                      finished := w.finished ++ [slot.update] }
                -- another thread has renamed the temporary file
                | none => some (w.goto id slot .failed)
              else none
          | _ => none
      | none => none

/-- A file before any update; a temporary file may be left over. -/
def start (text : String) (tmp : Option (List Char)) : World where
  disk :=
    { inodes := fun i => if i = 0 then text.toList else tmp.getD []
      env := 0
      tmp := if tmp = none then none else some 1
      fresh := 2 }
  slots := .empty
  finished := []

/-! ## What the updates leave -/

/-- The value the finished updates give a key last. -/
def lastValue (key : Key) (finished : List Update) : Option String :=
  finished.foldl (fun v u => if u.key = key then some u.value.1 else v) none

def AllEnded (w : World) : Prop :=
  ∀ id slot, w.slots.get id = some slot → slot.pc = .done ∨ slot.pc = .failed

/-- The file the finished updates make of the first one, applied whole and in
the order of their renames. -/
def merged (text : List Char) (finished : List Update) : List Char :=
  finished.foldl (fun t u => u.rewrite t) text

/-- No update is lost: every one is finished, the file is what the updates make of
the first one in turn, and every key has the value it was given last. -/
def NoneLost (text : String) (w : World) : Prop :=
  (∀ id slot, w.slots.get id = some slot → slot.pc = .done ∧ slot.update ∈ w.finished) ∧
    w.disk.text = merged text.toList w.finished ∧
      ∀ key v, lastValue key w.finished = some v → valueIn key (String.ofList w.disk.text) = some v

/-- An update reads the file only while no other is between its read and its
rename, and only when it has a line of its own. -/
def oneAtATime (w : World) : Act → Bool
  | .read id =>
      (w.slots.entries.all fun e => !e.2.pc.active) &&
        match w.slots.get id with
        | some slot => slot.update.fits w.disk.text
        | none => true
  | _ => true

/-! ## What an update sets -/

namespace Update

theorem oneLine_key (u : Update) : OneLine u.key.text := by
  rw [key]
  cases u.path <;> decide

theorem oneLine_line (u : Update) : OneLine (u.key.line u.value.1) :=
  (u.oneLine_key.append (by decide)).append u.value.2

theorem valueOf_sed (u : Update) (k : Key) (lines : Lines) :
    valueOf k (lines.map u.sedLine) =
      if k = u.key ∧ lines.any u.key.isLine = true then some u.value.1 else valueOf k lines := by
  induction lines with
  | nil => simp [valueOf]
  | cons line lines ih =>
      rw [List.map_cons, List.any_cons, sedLine]
      by_cases hline : u.key.isLine line = true
      · by_cases hk : k = u.key
        · simp [valueOf, hline, hk]
        · simp only [hk, false_and, if_false] at ih ⊢
          simpa [valueOf, hline, hk, isLine_own hline hk] using ih
      · simp only [hline, Bool.false_or]
        cases hkline : k.isLine line with
        | true =>
            have hk : k ≠ u.key := fun he => hline (he ▸ hkline)
            simp [valueOf, hkline, hk]
        | false => simpa [valueOf, hkline] using ih

/-- The lines of a text that the upgrade has rewritten. -/
theorem textLines_sed (u : Update) {text : List Char} (hcr : '\r' ∉ text) :
    textLines (String.ofList (charsOf (((text.splitOn '\n').map String.ofList).map u.sedLine))) =
      (textLines (String.ofList text)).map u.sedLine := by
  have hlines : (text.splitOn '\n').map String.ofList = textLines (String.ofList text) := by
    rw [textLines, String.toList_ofList, universal_eq_self hcr]
  rw [hlines]
  refine textLines_of_charsOf ?_ ?_ (String.toList_ofList)
  · simpa using textLines_ne_nil (String.ofList text)
  · intro line hline
    obtain ⟨old, hold, rfl⟩ := List.mem_map.mp hline
    rw [sedLine]
    split_ifs
    · exact u.oneLine_line
    · exact oneLine_textLines hold

/-- A fitting update sets its key and no other. -/
theorem valueIn_rewrite {u : Update} {text : List Char} (hcr : '\r' ∉ text)
    (h : u.fits text = true) (k : Key) :
    valueIn k (String.ofList (u.rewrite text)) =
      if k = u.key then some u.value.1 else valueIn k (String.ofList text) := by
  unfold rewrite
  unfold fits at h
  split
  · next himage =>
      simp only [himage] at h
      rw [valueIn, u.textLines_sed hcr, valueOf_sed, h]
      simp only [and_true]
      rfl
  · next himage =>
      have hfits : EnvEdits.fits u.key (String.ofList text) = true := by
        split at h
        · next he => exact absurd he himage
        · exact h
      rw [String.ofList_toList]
      exact valueIn_upsertKv u.oneLine_key u.value.2 hfits k

/-- An update writes no carriage return. -/
theorem notMem_rewrite (u : Update) {text : List Char} (hcr : '\r' ∉ text) : '\r' ∉ u.rewrite text := by
  unfold rewrite
  split
  · refine notMem_charsOf (by decide) fun line hline => ?_
    obtain ⟨old, hold, rfl⟩ := List.mem_map.mp hline
    rw [sedLine]
    split_ifs
    · exact u.oneLine_line.2
    · obtain ⟨cs, hcs, rfl⟩ := List.mem_map.mp hold
      rw [String.toList_ofList]
      exact fun hm => hcr (PythonText.mem_splitOn hcs hm).1
  · rw [toList_upsertKv]
    exact notMem_charsOf (by decide) fun line hline =>
      (oneLine_editLines u.oneLine_key u.value.2 (fun _ => oneLine_textLines) line hline).2

end Update

/-! ## What a step can do -/

inductive Steps (w : World) : Act → World → Prop
  | start {id u} : w.slots.get id = none →
      Steps w (.start id u) { w with slots := w.slots.put id ⟨u, .waiting⟩ }
  | read {id slot} : w.slots.get id = some slot → slot.pc = .waiting →
      Steps w (.read id) (w.goto id slot (.edited (slot.update.rewrite w.disk.text)))
  | create {id slot text} : w.slots.get id = some slot → slot.pc = .edited text →
      slot.update.path ≠ .imageTag →
      Steps w (.create id)
        { w.goto id slot (.writing (w.disk.tmp.getD w.disk.fresh) text 0) with
          disk := { w.disk with
            inodes := Function.update w.disk.inodes (w.disk.tmp.getD w.disk.fresh) []
            tmp := some (w.disk.tmp.getD w.disk.fresh)
            fresh := if w.disk.tmp = none then w.disk.fresh + 1 else w.disk.fresh } }
  | write {id n slot inode text offset} : w.slots.get id = some slot →
      slot.pc = .writing inode text offset →
      Steps w (.write id n)
        { w.goto id slot (.writing inode text (offset + ((text.drop offset).take n).length)) with
          disk := { w.disk with
            inodes := Function.update w.disk.inodes inode
              (overlay (w.disk.inodes inode) offset ((text.drop offset).take n)) } }
  | sed {id slot text} : w.slots.get id = some slot → slot.pc = .edited text →
      slot.update.path = .imageTag →
      Steps w (.replace id)
        { w.goto id slot .done with
          disk := { w.disk with
            inodes := Function.update w.disk.inodes w.disk.fresh text
            env := w.disk.fresh
            fresh := w.disk.fresh + 1 }
          finished := w.finished ++ [slot.update] }
  | rename {id slot inode text offset tmp} : w.slots.get id = some slot →
      slot.pc = .writing inode text offset → text.length ≤ offset → w.disk.tmp = some tmp →
      Steps w (.replace id)
        { w.goto id slot .done with
          disk := { w.disk with env := tmp, tmp := none }
          finished := w.finished ++ [slot.update] }
  | gone {id slot inode text offset} : w.slots.get id = some slot →
      slot.pc = .writing inode text offset → w.disk.tmp = none →
      Steps w (.replace id) (w.goto id slot .failed)

theorem steps_of_step {w v : World} {act : Act} (h : step w act = some v) : Steps w act v := by
  cases act with
  | start id u =>
      simp only [step] at h
      split_ifs at h with hid
      cases h
      exact .start hid
  | read id =>
      simp only [step] at h
      split at h
      · next slot hslot =>
          split_ifs at h with hpc
          cases h
          exact .read hslot hpc.1
      · cases h
  | create id =>
      simp only [step] at h
      split at h
      · next slot hslot =>
          split at h
          · next text hpc =>
              split_ifs at h with hpath
              all_goals
                cases h
                simpa [*] using Steps.create hslot hpc hpath
          · cases h
      · cases h
  | write id n =>
      simp only [step] at h
      split at h
      · next slot hslot =>
          split at h
          · next inode text offset hpc =>
              cases h
              exact .write hslot hpc
          · cases h
      · cases h
  | replace id =>
      simp only [step] at h
      split at h
      · next slot hslot =>
          split at h
          · next text hpc =>
              split_ifs at h with hpath
              cases h
              exact .sed hslot hpc hpath
          · next inode text offset hpc =>
              split_ifs at h with hlen
              split at h
              · next tmp htmp =>
                  cases h
                  exact .rename hslot hpc hlen htmp
              · next htmp =>
                  cases h
                  exact .gone hslot hpc htmp
          · cases h
      · cases h

/-! ## Updates one at a time -/

theorem merged_concat (text : List Char) (finished : List Update) (u : Update) :
    merged text (finished ++ [u]) = u.rewrite (merged text finished) := by
  simp only [merged, List.foldl_append, List.foldl_cons, List.foldl_nil]

theorem lastValue_concat (key : Key) (finished : List Update) (u : Update) :
    lastValue key (finished ++ [u]) =
      if u.key = key then some u.value.1 else lastValue key finished := by
  simp only [lastValue, List.foldl_append, List.foldl_cons, List.foldl_nil]

/-- What an update has made so far, when the file holds `file`. -/
def Stage (d : Disk) (finished : List Update) (file : List Char) (slot : Slot) : Prop :=
  match slot.pc with
  | .waiting => True
  | .edited text => text = slot.update.rewrite file ∧ slot.update.fits file = true
  | .writing inode text offset =>
      (text = slot.update.rewrite file ∧ slot.update.fits file = true) ∧
        d.tmp = some inode ∧ d.inodes inode = text.take offset ∧ offset ≤ text.length
  | .done => slot.update ∈ finished
  | .failed => False

theorem Stage.idle {d d' : Disk} {finished finished' : List Update} {file file' : List Char}
    {slot : Slot} (h : Stage d finished file slot) (hidle : slot.pc.active = false)
    (hsub : ∀ u ∈ finished, u ∈ finished') : Stage d' finished' file' slot := by
  obtain ⟨update, pc⟩ := slot
  cases pc with
  | waiting => trivial
  | edited text => cases hidle
  | writing inode text offset => cases hidle
  | done => exact hsub _ h
  | failed => exact h

/-- A file in which every key has the value it was given last, and at most one
update between its read and its rename. -/
structure Inv (first : List Char) (w : World) : Prop where
  text : w.disk.text = merged first w.finished
  clean : '\r' ∉ merged first w.finished
  values : ∀ key v, lastValue key w.finished = some v →
    valueIn key (String.ofList (merged first w.finished)) = some v
  alone : ∀ i j s t, w.slots.get i = some s → w.slots.get j = some t → s.pc.active = true →
    t.pc.active = true → i = j
  stages : ∀ id slot, w.slots.get id = some slot →
    Stage w.disk w.finished (merged first w.finished) slot
  env_lt : w.disk.env < w.disk.fresh
  tmp_lt : ∀ i, w.disk.tmp = some i → i ≠ w.disk.env ∧ i < w.disk.fresh

/-- One slot moves while no other is active. -/
theorem Inv.move {first : List Char} {w v : World} (h : Inv first w) {id : ℕ} {slot : Slot} {pc : Pc}
    (hslots : v.slots = w.slots.put id { slot with pc := pc })
    (hothers : ∀ j t, j ≠ id → w.slots.get j = some t → t.pc.active = false)
    (hsub : ∀ u ∈ w.finished, u ∈ v.finished)
    (htext : v.disk.text = merged first v.finished)
    (hfile : '\r' ∉ merged first v.finished ∧ ∀ key x, lastValue key v.finished = some x →
      valueIn key (String.ofList (merged first v.finished)) = some x)
    (henv : v.disk.env < v.disk.fresh)
    (htmp : ∀ i, v.disk.tmp = some i → i ≠ v.disk.env ∧ i < v.disk.fresh)
    (hstage : Stage v.disk v.finished (merged first v.finished) { slot with pc := pc }) :
    Inv first v := by
  have hactive : ∀ j t, v.slots.get j = some t → t.pc.active = true → j = id := by
    intro j t ht hact
    rw [hslots, OrderedMap.get_put] at ht
    split_ifs at ht with hj
    · exact hj.symm
    · rw [hothers j t (Ne.symm hj) ht] at hact
      cases hact
  refine ⟨htext, hfile.1, hfile.2, ?_, ?_, henv, htmp⟩
  · intro i j s t hs ht hact hact'
    rw [hactive i s hs hact, hactive j t ht hact']
  · intro j t ht
    rw [hslots, OrderedMap.get_put] at ht
    split_ifs at ht with hj
    · rw [← Option.some.inj ht]
      exact hstage
    · exact (h.stages j t ht).idle (hothers j t (Ne.symm hj) ht) hsub

/-- When an update is active, no other is. -/
theorem Inv.others {first : List Char} {w : World} (h : Inv first w) {id : ℕ} {slot : Slot}
    (hslot : w.slots.get id = some slot) (hact : slot.pc.active = true) :
    ∀ j t, j ≠ id → w.slots.get j = some t → t.pc.active = false := by
  intro j t hj ht
  cases hactive : t.pc.active with
  | false => rfl
  | true => exact absurd (h.alone j id t slot ht hslot hactive hact) hj

/-- A piece that is written behind the pieces before it. -/
theorem overlay_take (text : List Char) {offset : ℕ} (n : ℕ) (h : offset ≤ text.length) :
    overlay (text.take offset) offset ((text.drop offset).take n) =
      text.take (offset + ((text.drop offset).take n).length) := by
  have hrest : (text.take offset).drop (offset + ((text.drop offset).take n).length) = [] :=
    List.drop_eq_nil_of_le (by simp)
  rw [List.take_add, List.length_take, ← List.take_eq_take_min, overlay, hrest]
  simp [Nat.min_eq_left h]

/-- A finished update has set its key in the file. -/
theorem Inv.finish {first : List Char} {w : World} (h : Inv first w) {u : Update}
    (hfits : u.fits (merged first w.finished) = true) :
    '\r' ∉ merged first (w.finished ++ [u]) ∧
      ∀ key v, lastValue key (w.finished ++ [u]) = some v →
        valueIn key (String.ofList (merged first (w.finished ++ [u]))) = some v := by
  rw [merged_concat]
  refine ⟨u.notMem_rewrite h.clean, fun key v hv => ?_⟩
  rw [lastValue_concat] at hv
  rw [Update.valueIn_rewrite h.clean hfits]
  split_ifs at hv with hkey
  · rw [if_pos hkey.symm, hv]
  · rw [if_neg (Ne.symm hkey)]
    exact h.values key v hv

theorem inv_step {first : List Char} {w v : World} {act : Act} (h : Inv first w)
    (hg : oneAtATime w act = true) (hs : step w act = some v) : Inv first v := by
  cases steps_of_step hs with
  | @start id u hid =>
      refine ⟨h.text, h.clean, h.values, ?_, ?_, h.env_lt, h.tmp_lt⟩
      · intro i j s t hi hj hsact htact
        rw [OrderedMap.get_put] at hi hj
        split_ifs at hi hj
        · omega
        · rw [← Option.some.inj hi] at hsact
          cases hsact
        · rw [← Option.some.inj hj] at htact
          cases htact
        · exact h.alone i j s t hi hj hsact htact
      · intro j t ht
        rw [OrderedMap.get_put] at ht
        split_ifs at ht with hj
        · rw [← Option.some.inj ht]
          trivial
        · exact h.stages j t ht
  | @read id slot hslot hpc =>
      simp only [oneAtATime, hslot, Bool.and_eq_true, List.all_eq_true, Bool.not_eq_true'] at hg
      have hidle : ∀ j t, j ≠ id → w.slots.get j = some t → t.pc.active = false := fun j t _ ht =>
        hg.1 (j, t) (OrderedMap.mem_entries.mpr ht)
      refine h.move rfl hidle (fun u hu => hu) h.text ⟨h.clean, h.values⟩ h.env_lt h.tmp_lt ?_
      change _ ∧ _
      exact ⟨by rw [h.text]; rfl, h.text ▸ hg.2⟩
  | @create id slot text hslot hpc hpath =>
      have hstage := h.stages id slot hslot
      rw [Stage, hpc] at hstage
      have hothers := h.others hslot (by rw [hpc]; rfl)
      have hinode : w.disk.tmp.getD w.disk.fresh ≠ w.disk.env := by
        cases htmp : w.disk.tmp with
        | none => exact h.env_lt.ne'
        | some i => exact (h.tmp_lt i htmp).1
      refine h.move rfl hothers (fun u hu => hu) ?_ ⟨h.clean, h.values⟩ ?_ ?_ ?_
      · exact (Function.update_of_ne hinode.symm _ _).trans h.text
      · dsimp only
        have := h.env_lt
        split_ifs <;> omega
      · rintro i hi
        obtain rfl := Option.some.inj hi
        refine ⟨hinode, ?_⟩
        dsimp only
        cases htmp : w.disk.tmp with
        | none => simp
        | some i => simpa using (h.tmp_lt i htmp).2
      · change _ ∧ _
        exact ⟨hstage, rfl, Function.update_self _ _ _, Nat.zero_le _⟩
  | @write id n slot inode text offset hslot hpc =>
      have hstage := h.stages id slot hslot
      rw [Stage, hpc] at hstage
      obtain ⟨htext, htmp, hinode, hoffset⟩ := hstage
      have hne := (h.tmp_lt inode htmp).1
      have hothers := h.others hslot (by rw [hpc]; rfl)
      refine h.move rfl hothers (fun u hu => hu) ?_ ⟨h.clean, h.values⟩ h.env_lt h.tmp_lt ?_
      · exact (Function.update_of_ne hne.symm _ _).trans h.text
      · change _ ∧ _
        refine ⟨htext, htmp, ?_, ?_⟩
        · dsimp only
          rw [Function.update_self, hinode]
          exact overlay_take text n hoffset
        · simp only [List.length_take, List.length_drop]
          omega
  | @sed id slot text hslot hpc hpath =>
      have hstage := h.stages id slot hslot
      rw [Stage, hpc] at hstage
      have hothers := h.others hslot (by rw [hpc]; rfl)
      refine h.move rfl hothers (fun u hu => List.mem_append_left _ hu) ?_ (h.finish hstage.2)
        (Nat.lt_succ_self _) (fun i hi => ?_) (List.mem_append_right w.finished List.mem_cons_self)
      · rw [merged_concat, ← hstage.1]
        exact Function.update_self _ _ _
      · have hlt := (h.tmp_lt i hi).2
        exact ⟨hlt.ne, Nat.lt_succ_of_lt hlt⟩
  | @rename id slot inode text offset tmp hslot hpc hlen htmp =>
      have hstage := h.stages id slot hslot
      rw [Stage, hpc] at hstage
      obtain ⟨htext, htmp', hinode, hoffset⟩ := hstage
      obtain rfl := Option.some.inj (htmp.symm.trans htmp')
      have hothers := h.others hslot (by rw [hpc]; rfl)
      refine h.move rfl hothers (fun u hu => List.mem_append_left _ hu) ?_ (h.finish htext.2)
        (h.tmp_lt tmp htmp).2 (fun i hi => by cases hi)
        (List.mem_append_right w.finished List.mem_cons_self)
      rw [merged_concat, ← htext.1]
      exact hinode.trans (List.take_of_length_le hlen)
  | @gone id slot inode text offset hslot hpc htmp =>
      have hstage := h.stages id slot hslot
      rw [Stage, hpc] at hstage
      rw [hstage.2.1] at htmp
      cases htmp

theorem inv_start {text : String} (h : '\r' ∉ text.toList) (tmp : Option (List Char)) :
    Inv text.toList (start text tmp) where
  text := rfl
  clean := h
  values := fun key v hv => by cases hv
  alone := fun i j s t hs => by cases hs
  stages := fun id slot hslot => by cases hslot
  env_lt := Nat.zero_lt_two
  tmp_lt := by
    intro i hi
    simp only [start] at hi ⊢
    split_ifs at hi
    obtain rfl := Option.some.inj hi
    exact ⟨one_ne_zero, one_lt_two⟩

/-- When every update reads the file only while no other is between its read and
its rename, and only when it has a line of its own, no update is lost. -/
theorem none_lost {text : String} (hcr : '\r' ∉ text.toList) {tmp : Option (List Char)}
    {as : List Act} {w : World}
    (hg : Keeps step (fun w act => oneAtATime w act = true) (start text tmp) as)
    (hr : run step (start text tmp) as = some w) (hend : AllEnded w) : NoneLost text w := by
  have hinv : Inv text.toList w :=
    run_guarded (fun s a t hs hkeep ht => inv_step hs hkeep ht) (inv_start hcr tmp) hg hr
  refine ⟨?_, hinv.text, hinv.text ▸ hinv.values⟩
  intro id slot hslot
  have hstage := hinv.stages id slot hslot
  rcases hend id slot hslot with hpc | hpc
  · rw [Stage, hpc] at hstage
    exact ⟨hpc, hstage⟩
  · rw [Stage, hpc] at hstage
    cases hstage

/-! ## Two updates -/

def envText : String := "PEER_IPS=10.0.0.1\nPULSAR_HOST=node-1\nMILVUS_IMAGE_TAG=v2.5.4\n"

/-- The topology handler adds a peer. -/
def newPeer : Update := ⟨.peerIps, ⟨"10.0.0.1,10.0.0.2", by decide⟩, true⟩

/-- A `sync-pulsar-host` request. -/
def newHost : Update := ⟨.pulsarHost, ⟨"node-2", by decide⟩, false⟩

def newTag : Update := ⟨.imageTag, ⟨"v2.5.5", by decide⟩, false⟩

/-- An update from its read to its rename. -/
def wholeUpsert (id : ℕ) : List Act := [.read id, .create id, .write id 1000, .replace id]

def ended (w : World) : Bool :=
  w.slots.entries.all fun e => e.2.pc = .done || e.2.pc = .failed

theorem allEnded_of_ended {w : World} (h : ended w = true) : AllEnded w := by
  intro id slot hslot
  have hm := List.all_eq_true.mp h _ (OrderedMap.mem_entries.mpr hslot)
  simpa using hm

/-- One after the other. -/
def inTurn : List Act :=
  [Act.start 1 newPeer, .start 2 newHost, .start 3 newTag] ++ wholeUpsert 1 ++ wholeUpsert 2 ++
    [Act.read 3, .replace 3]

theorem none_lost_inTurn :
    ∃ w, run step (start envText none) inTurn = some w ∧ NoneLost envText w := by
  have hkeeps : Keeps step (fun w act => oneAtATime w act = true) (start envText none) inTurn := by
    decide +kernel
  have hrun : (run step (start envText none) inTurn).any ended = true := by decide +kernel
  obtain ⟨w, hw, hended⟩ := (Option.any_eq_true _ _).mp hrun
  exact ⟨w, hw, none_lost (by decide) hkeeps hw (allEnded_of_ended hended)⟩

/-- The request reads the file before the handler renames its own. -/
def overlapping : List Act :=
  [Act.start 1 newPeer, .start 2 newHost, .read 1, .read 2, .create 1, .write 1 1000, .replace 1,
    .create 2, .write 2 1000, .replace 2]

/-- Both updates are done, and the peer list is the old one. -/
theorem update_lost : ∃ (text : String) (as : List Act) (w : World),
    '\r' ∉ text.toList ∧ run step (start text none) as = some w ∧ AllEnded w ∧ ¬ NoneLost text w := by
  have hrun : (run step (start envText none) overlapping).any (fun w => ended w &&
      decide (w.finished = [newPeer, newHost] ∧
        valueIn PEER_IPS (String.ofList w.disk.text) = some "10.0.0.1")) = true := by
    decide +kernel
  obtain ⟨w, hw, htest⟩ := (Option.any_eq_true _ _).mp hrun
  obtain ⟨hended, hfile⟩ := Bool.and_eq_true_iff.mp htest
  obtain ⟨hfinished, hvalue⟩ := of_decide_eq_true hfile
  refine ⟨envText, overlapping, w, by decide, hw, allEnded_of_ended hended, ?_⟩
  rintro ⟨-, -, hvalues⟩
  have hlast := hvalues PEER_IPS "10.0.0.1,10.0.0.2" (by rw [hfinished]; decide)
  rw [hvalue] at hlast
  exact absurd hlast (by decide)

end MilvusOnprem.ConcurrentUpdates
