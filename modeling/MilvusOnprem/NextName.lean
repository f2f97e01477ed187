import MilvusOnprem.Joining

/-!
# The next free name

The leader counts up from 1 until it meets a number that no name has. The numbers are
those of the names that a pattern matches. The pattern also matches a name with a newline
behind its digits, and the conversion of the digits has a limit.
-/
namespace MilvusOnprem.NextName

open PythonText Joining

/-- The group of `^node-(\d+)$`. -/
def digitGroup (name : String) : Option (List Char) :=
  if startsWith name "node-" then
    let ds := dropFinalNewline (removePrefix "node-" name).toList
    if (parseDigits ds).isSome then some ds else none
  else none

def maxDigits : ℕ := 4300

/-- `int(m.group(1))`, which refuses a text with too many digits. -/
def intOf (ds : List Char) : Except Exc ℕ :=
  if maxDigits < ds.length then
    .error (.valueError ("Exceeds the limit (" ++ toString maxDigits ++ " digits) for integer string " ++
      "conversion: value has " ++ toString ds.length ++ " digits; use sys.set_int_max_str_digits() to " ++
      "increase the limit"))
  else .ok ((parseDigits ds).getD 0)

/-- The set `used`. -/
def usedNumbers (existingNames : List String) : Except Exc (List ℕ) :=
  (existingNames.filterMap digitGroup).mapM intOf

/-- `while n in used: n += 1` ends with a number. -/
inductive Search (used : List ℕ) : ℕ → ℕ → Prop
  | found {n} : n ∉ used → Search used n n
  | next {n m} : n ∈ used → Search used (n + 1) m → Search used n m

/-- `_allocate_next_name` ends with a name or raises. -/
inductive Allocates (existingNames : List String) : Except Exc String → Prop
  | refused {e} : usedNumbers existingNames = .error e → Allocates existingNames (.error e)
  | found {used n} : usedNumbers existingNames = .ok used → Search used 1 n →
      Allocates existingNames (.ok (nodeName n))

/-- The number of a name `node-<digits>`. -/
def suffix (name : String) : Option ℕ :=
  if startsWith name "node-" then parseDigits (removePrefix "node-" name).toList else none

/-- The positive numbers that no name has. -/
def Free (existingNames : List String) : Set ℕ :=
  {n | 1 ≤ n ∧ ∀ name ∈ existingNames, suffix name ≠ some n}

/-- The call ends, and it returns the name of the least free number, which is new. -/
structure Picks (existingNames : List String) : Prop where
  ends : ∃ r, Allocates existingNames r
  returns : ∀ r, Allocates existingNames r → ∃ n, r = .ok (nodeName n) ∧
    IsLeast (Free existingNames) n ∧ nodeName n ∉ existingNames

/-- No number is too long, and the least free one is not that of a name with a newline at
its end. -/
structure Plain (existingNames : List String) : Prop where
  short : ∀ name ∈ existingNames, ∀ ds ∈ digitGroup name, ds.length ≤ maxDigits
  ended : ∀ n, IsLeast (Free existingNames) n → ∀ name ∈ existingNames,
    name.toList.getLast? = some '\n' → nodeSuffix name ≠ some n

/-! ## The numbers -/

theorem nodeSuffix_eq (name : String) : nodeSuffix name = (digitGroup name).bind parseDigits := by
  unfold nodeSuffix digitGroup
  split_ifs with hnode
  · dsimp only
    cases hds : parseDigits (dropFinalNewline (removePrefix "node-" name).toList) with
    | none => simp
    | some n => simp [hds]
  · rfl

theorem parseDigits_newline {cs : List Char} (h : '\n' ∈ cs) : parseDigits cs = none := by
  have hnone : ∀ (cs : List Char) (m : ℕ), '\n' ∈ cs →
      cs.foldlM (fun n c => (decimalDigit c).map fun d => 10 * n + d) m = none := by
    intro cs
    induction cs with
    | nil => exact fun m hm => absurd hm List.not_mem_nil
    | cons c cs ih =>
        intro m hm
        rw [List.foldlM_cons]
        rcases List.mem_cons.mp hm with rfl | hm
        · rfl
        · cases decimalDigit c with
          | none => rfl
          | some d => exact ih _ hm
  rw [parseDigits, if_neg (List.ne_nil_of_mem h), hnone cs 0 h]

/-- The last character of a name in front of which the name begins with `node-`. -/
theorem getLast?_removePrefix {name : String} (h : startsWith name "node-" = true) :
    (removePrefix "node-" name).toList.getLast? = some '\n' ↔ name.toList.getLast? = some '\n' := by
  have hname : name.toList = "node-".toList ++ (removePrefix "node-" name).toList := by
    conv_lhs => rw [← append_removePrefix h, String.toList_append]
  rw [hname, List.getLast?_append]
  cases (removePrefix "node-" name).toList.getLast? with
  | none => decide
  | some c => rfl

/-- The pattern takes a number from a name `node-<digits>`, and from one with a newline
behind it. -/
theorem nodeSuffix_of_not_ended {name : String} (h : name.toList.getLast? ≠ some '\n') :
    nodeSuffix name = suffix name := by
  unfold nodeSuffix suffix
  split_ifs with hnode
  · rw [dropFinalNewline, if_neg fun hlast => h ((getLast?_removePrefix hnode).mp hlast)]
  · rfl

theorem suffix_of_ended {name : String} (h : name.toList.getLast? = some '\n') : suffix name = none := by
  unfold suffix
  split_ifs with hnode
  · exact parseDigits_newline (List.mem_of_getLast? ((getLast?_removePrefix hnode).mpr h))
  · rfl

theorem nodeSuffix_of_suffix {name : String} {n : ℕ} (h : suffix name = some n) :
    nodeSuffix name = some n := by
  by_cases hended : name.toList.getLast? = some '\n'
  · rw [suffix_of_ended hended] at h
    cases h
  · rw [nodeSuffix_of_not_ended hended, h]

theorem suffix_nodeName (n : ℕ) : suffix (nodeName n) = some n := by
  rw [suffix, nodeName, startsWith_append, if_pos rfl, removePrefix_append, String.toList_ofList,
    parseDigits_natDigits]

section Used

variable {existingNames : List String} {used : List ℕ}

theorem usedNumbers_ok (h : ∀ name ∈ existingNames, ∀ ds ∈ digitGroup name, ds.length ≤ maxDigits) :
    usedNumbers existingNames = .ok (existingNames.filterMap nodeSuffix) := by
  unfold usedNumbers
  induction existingNames with
  | nil => rfl
  | cons name names ih =>
      have hnames := ih fun name' hname' => h name' (List.mem_cons_of_mem name hname')
      rw [List.filterMap_cons, List.filterMap_cons, nodeSuffix_eq]
      cases hds : digitGroup name with
      | none => exact hnames
      | some ds =>
          have hshort : ¬maxDigits < ds.length := Nat.not_lt.mpr (h name List.mem_cons_self ds hds)
          have hsome : (parseDigits ds).isSome = true := by
            unfold digitGroup at hds
            dsimp only at hds
            split_ifs at hds with hnode hdigits
            rwa [← Option.some.inj hds]
          obtain ⟨n, hn⟩ := Option.isSome_iff_exists.mp hsome
          rw [Option.bind_some, hn, List.mapM_cons, hnames, intOf, if_neg hshort, hn]
          rfl

theorem short_of_usedNumbers (h : usedNumbers existingNames = .ok used) :
    ∀ name ∈ existingNames, ∀ ds ∈ digitGroup name, ds.length ≤ maxDigits := by
  unfold usedNumbers at h
  induction existingNames generalizing used with
  | nil => exact nofun
  | cons name names ih =>
      rw [List.filterMap_cons] at h
      intro name' hname' ds hds
      cases hgroup : digitGroup name with
      | none =>
          rw [hgroup] at h
          rcases List.mem_cons.mp hname' with rfl | hname'
          · rw [hgroup] at hds
            cases hds
          · exact ih h name' hname' ds hds
      | some ds' =>
          rw [hgroup] at h
          dsimp only at h
          rw [List.mapM_cons, intOf] at h
          split_ifs at h with hlong
          · cases h
          · cases hrest : (names.filterMap digitGroup).mapM intOf with
            | error e =>
                rw [hrest] at h
                cases h
            | ok rest =>
                rcases List.mem_cons.mp hname' with rfl | hname'
                · rw [hgroup] at hds
                  cases hds
                  exact Nat.le_of_not_lt hlong
                · exact ih hrest name' hname' ds hds

end Used

/-! ## The loop -/

theorem search_least {used : List ℕ} {n m : ℕ} (h : Search used n m) :
    IsLeast {k | n ≤ k ∧ k ∉ used} m := by
  induction h with
  | found hn => exact ⟨⟨le_rfl, hn⟩, fun k hk => hk.1⟩
  | @next n m hn _ ih =>
      refine ⟨⟨(Nat.le_succ n).trans ih.1.1, ih.1.2⟩, fun k hk => ih.2 ⟨?_, hk.2⟩⟩
      exact Nat.lt_of_le_of_ne hk.1 fun he => hk.2 (he ▸ hn)

/-- The loop ends: there are more numbers than used ones. -/
theorem search_leastUnused (used : List ℕ) : Search used 1 (leastUnused used used.length 1) := by
  have hfuel : ∀ fuel n, leastUnused used fuel n ∉ used → Search used n (leastUnused used fuel n) := by
    intro fuel
    induction fuel with
    | zero => exact fun n hn => .found hn
    | succ fuel ih =>
        intro n hn
        unfold leastUnused at hn ⊢
        split_ifs at hn ⊢ with hused
        · exact .next hused (ih (n + 1) hn)
        · exact .found hused
  exact hfuel used.length 1 leastUnused_notMem

theorem exists_allocates (existingNames : List String) : ∃ r, Allocates existingNames r := by
  cases hused : usedNumbers existingNames with
  | error e => exact ⟨_, .refused hused⟩
  | ok used => exact ⟨_, .found hused (search_leastUnused used)⟩

/-- The name that a join takes is the one of the call. -/
theorem allocates_allocateNextName {existingNames : List String}
    (h : ∀ name ∈ existingNames, ∀ ds ∈ digitGroup name, ds.length ≤ maxDigits) :
    Allocates existingNames (.ok (allocateNextName existingNames)) :=
  .found (usedNumbers_ok h) (search_leastUnused _)

theorem plain_of_picks {existingNames : List String} (h : Picks existingNames) : Plain existingNames := by
  obtain ⟨r, hr⟩ := h.ends
  obtain ⟨n, rfl, hleast, -⟩ := h.returns r hr
  obtain ⟨used, hused, hsearch⟩ : ∃ used, usedNumbers existingNames = .ok used ∧
      ∃ m, Search used 1 m ∧ nodeName n = nodeName m := by
    generalize hname : Except.ok (nodeName n) = r at hr
    cases hr with
    | refused he => cases hname
    | found hused hsearch => exact ⟨_, hused, _, hsearch, Except.ok.inj hname⟩
  obtain ⟨m, hsearch, hname⟩ := hsearch
  have hnm : n = m := by
    have hsuffix := suffix_nodeName n
    rw [hname, suffix_nodeName] at hsuffix
    exact (Option.some.inj hsuffix).symm
  have hshort := short_of_usedNumbers hused
  refine ⟨hshort, fun k hk name hmem _ hsuffix => ?_⟩
  cases Except.ok.inj (hused.symm.trans (usedNumbers_ok hshort))
  rw [← hnm] at hsearch
  have hkn : k = n := hk.unique hleast
  exact (search_least hsearch).1.2 (List.mem_filterMap.mpr ⟨name, hmem, hkn ▸ hsuffix⟩)

theorem picks_of_plain {existingNames : List String} (h : Plain existingNames) : Picks existingNames := by
  refine ⟨exists_allocates existingNames, fun r hr => ?_⟩
  have hused := usedNumbers_ok h.short
  cases hr with
  | refused he =>
      rw [hused] at he
      cases he
  | @found used m hused' hsearch =>
      cases Except.ok.inj (hused.symm.trans hused')
      have hm := search_least hsearch
      have hfree : m ∈ Free existingNames := ⟨hm.1.1, fun name hmem hsuffix =>
        hm.1.2 (List.mem_filterMap.mpr ⟨name, hmem, nodeSuffix_of_suffix hsuffix⟩)⟩
      obtain ⟨n, hn⟩ : ∃ n, IsLeast (Free existingNames) n := by
        classical
        exact ⟨Nat.find ⟨m, hfree⟩, Nat.find_spec ⟨m, hfree⟩, fun k hk => Nat.find_min' ⟨m, hfree⟩ hk⟩
      have hunused : n ∉ existingNames.filterMap nodeSuffix := by
        intro hmem
        obtain ⟨name, hname, hsuffix⟩ := List.mem_filterMap.mp hmem
        by_cases hended : name.toList.getLast? = some '\n'
        · exact h.ended n hn name hname hended hsuffix
        · exact hn.1.2 name hname (nodeSuffix_of_not_ended hended ▸ hsuffix)
      have hnm : n = m := le_antisymm (hn.2 hfree) (hm.2 ⟨hn.1.1, hunused⟩)
      refine ⟨m, rfl, hnm ▸ hn, fun hmem => ?_⟩
      exact hfree.2 _ hmem (suffix_nodeName m)

/-- The name is the one of the least free number if and only if no number is too long for
the conversion and no name with a newline takes that number. -/
theorem picks_iff (existingNames : List String) : Picks existingNames ↔ Plain existingNames :=
  ⟨plain_of_picks, picks_of_plain⟩

/-- A name with a newline behind its number takes the number away. -/
theorem ended_name_counts : ¬∀ existingNames, Picks existingNames := by
  intro h
  have hplain := plain_of_picks (h ["node-1\n"])
  have hleast : IsLeast (Free ["node-1\n"]) 1 := by
    refine ⟨⟨le_rfl, fun name hname => ?_⟩, fun k hk => hk.1⟩
    rw [List.mem_singleton.mp hname]
    decide
  exact hplain.ended 1 hleast "node-1\n" List.mem_cons_self (by decide) (by decide)

end MilvusOnprem.NextName
