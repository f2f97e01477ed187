import Mathlib.Data.List.Basic
import Mathlib.Order.Basic
import Mathlib.Data.String.Basic

/-!
# Finite maps with ordered keys

A map is its list of entries in strictly ascending key order, and the order is
a field, so that a list with a repeated or misplaced key is not a map. Two maps
with the same lookups are therefore equal, and listing the entries of a map
gives the order in which a sorted store returns a range.
-/
namespace MilvusOnprem

structure OrderedMap (K V : Type*) [LinearOrder K] where
  entries : List (K × V)
  sorted : entries.Pairwise fun a b => a.1 < b.1

namespace OrderedMap

variable {K V : Type*} [LinearOrder K]

theorem ext_entries {m n : OrderedMap K V} (h : m.entries = n.entries) : m = n := by
  cases m; cases n; cases h; rfl

instance [DecidableEq K] [DecidableEq V] : DecidableEq (OrderedMap K V) := fun m n =>
  decidable_of_iff (m.entries = n.entries) ⟨ext_entries, fun h => h ▸ rfl⟩

def empty : OrderedMap K V := ⟨[], .nil⟩

/-- Lookup in a list of entries; the first entry of a key counts. -/
def getIn (k : K) : List (K × V) → Option V
  | [] => none
  | e :: es => if e.1 = k then some e.2 else getIn k es

def putIn (k : K) (v : V) : List (K × V) → List (K × V)
  | [] => [(k, v)]
  | e :: es =>
      if k < e.1 then (k, v) :: e :: es
      else if k = e.1 then (k, v) :: es
      else e :: putIn k v es

theorem mem_putIn {k : K} {v : V} {es : List (K × V)} {e : K × V}
    (h : e ∈ putIn k v es) : e = (k, v) ∨ e ∈ es := by
  induction es with
  | nil => simpa [putIn] using h
  | cons x xs ih =>
      unfold putIn at h
      split_ifs at h with h₁ h₂
      · simpa only [List.mem_cons] using h
      · rcases List.mem_cons.mp h with h | h
        · exact .inl h
        · exact .inr (List.mem_cons_of_mem x h)
      · rcases List.mem_cons.mp h with h | h
        · exact .inr (h ▸ List.mem_cons_self)
        · exact (ih h).imp_right (List.mem_cons_of_mem x)

theorem sorted_putIn (k : K) (v : V) {es : List (K × V)}
    (h : es.Pairwise fun a b => a.1 < b.1) :
    (putIn k v es).Pairwise fun a b => a.1 < b.1 := by
  induction es with
  | nil => simp [putIn]
  | cons x xs ih =>
      obtain ⟨hx, hxs⟩ := List.pairwise_cons.mp h
      unfold putIn
      split_ifs with h₁ h₂
      · refine List.pairwise_cons.mpr ⟨?_, h⟩
        intro b hb
        rcases List.mem_cons.mp hb with rfl | hb
        · exact h₁
        · exact h₁.trans (hx b hb)
      · subst h₂
        exact List.pairwise_cons.mpr ⟨hx, hxs⟩
      · refine List.pairwise_cons.mpr ⟨?_, ih hxs⟩
        intro b hb
        rcases mem_putIn hb with rfl | hb
        · exact lt_of_le_of_ne (not_lt.mp h₁) (Ne.symm h₂)
        · exact hx b hb

theorem getIn_putIn (k j : K) (v : V) (es : List (K × V)) :
    getIn j (putIn k v es) = if k = j then some v else getIn j es := by
  induction es with
  | nil => rfl
  | cons x xs ih =>
      unfold putIn
      split_ifs with h₁ h₂ h₃ h₃ h₃ <;> simp only [getIn]
      all_goals grind

theorem getIn_filter (k j : K) (es : List (K × V)) :
    getIn j (es.filter fun e => e.1 ≠ k) = if k = j then none else getIn j es := by
  induction es with
  | nil => simp [getIn]
  | cons x xs ih =>
      by_cases hx : x.1 = k
      · rw [List.filter_cons_of_neg (by simpa using hx), ih]
        subst hx
        split_ifs with h <;> simp [getIn, h]
      · rw [List.filter_cons_of_pos (by simpa using hx)]
        simp only [getIn, ih]
        split_ifs with h₁ h₂ h₂ <;> simp_all

def get (m : OrderedMap K V) (k : K) : Option V := getIn k m.entries

def put (m : OrderedMap K V) (k : K) (v : V) : OrderedMap K V :=
  ⟨putIn k v m.entries, sorted_putIn k v m.sorted⟩

def erase (m : OrderedMap K V) (k : K) : OrderedMap K V :=
  ⟨m.entries.filter fun e => e.1 ≠ k, m.sorted.filter _⟩

/-- The entries whose value satisfies a predicate. -/
def filterValues (m : OrderedMap K V) (p : V → Bool) : OrderedMap K V :=
  ⟨m.entries.filter fun e => p e.2, m.sorted.filter _⟩

@[simp] theorem get_empty (k : K) : (empty : OrderedMap K V).get k = none := rfl

theorem get_put (m : OrderedMap K V) (k j : K) (v : V) :
    (m.put k v).get j = if k = j then some v else m.get j := getIn_putIn k j v m.entries

@[simp] theorem get_put_self (m : OrderedMap K V) (k : K) (v : V) :
    (m.put k v).get k = some v := by simp [get_put]

theorem get_put_of_ne (m : OrderedMap K V) {k j : K} (v : V) (h : k ≠ j) :
    (m.put k v).get j = m.get j := by simp [get_put, h]

theorem get_erase (m : OrderedMap K V) (k j : K) :
    (m.erase k).get j = if k = j then none else m.get j := getIn_filter k j m.entries

@[simp] theorem get_erase_self (m : OrderedMap K V) (k : K) : (m.erase k).get k = none := by
  simp [get_erase]

theorem get_erase_of_ne (m : OrderedMap K V) {k j : K} (h : k ≠ j) :
    (m.erase k).get j = m.get j := by simp [get_erase, h]

theorem getIn_eq_some {es : List (K × V)} (h : es.Pairwise fun a b => a.1 < b.1)
    {k : K} {v : V} : getIn k es = some v ↔ (k, v) ∈ es := by
  induction es with
  | nil => simp [getIn]
  | cons x xs ih =>
      obtain ⟨hx, hxs⟩ := List.pairwise_cons.mp h
      obtain ⟨j, w⟩ := x
      simp only [getIn, List.mem_cons, Prod.mk.injEq]
      split_ifs with hk
      · subst hk
        constructor
        · rintro hw
          cases hw
          exact .inl ⟨rfl, rfl⟩
        · rintro (⟨-, rfl⟩ | hm)
          · rfl
          · exact absurd (hx _ hm) (lt_irrefl _)
      · rw [ih hxs]
        constructor
        · exact .inr
        · rintro (⟨rfl, -⟩ | hm)
          · exact absurd rfl hk
          · exact hm

/-- The entries are exactly the lookups. -/
theorem mem_entries {m : OrderedMap K V} {k : K} {v : V} :
    (k, v) ∈ m.entries ↔ m.get k = some v := (getIn_eq_some m.sorted).symm

theorem get_filterValues {m : OrderedMap K V} {p : V → Bool} {k : K} {v : V} :
    (m.filterValues p).get k = some v ↔ m.get k = some v ∧ p v = true := by
  rw [← mem_entries, ← mem_entries, filterValues, List.mem_filter]

private theorem entries_ext {es fs : List (K × V)} (he : es.Pairwise fun a b => a.1 < b.1)
    (hf : fs.Pairwise fun a b => a.1 < b.1) (h : ∀ e, e ∈ es ↔ e ∈ fs) : es = fs :=
  List.Perm.eq_of_pairwise (fun _ _ _ _ hab hba => absurd (hab.trans hba) (lt_irrefl _)) he hf <|
    (List.perm_ext_iff_of_nodup (he.imp fun hab => ne_of_apply_ne Prod.fst hab.ne)
      (hf.imp fun hab => ne_of_apply_ne Prod.fst hab.ne)).mpr h

/-- Maps with the same lookups are equal. -/
@[ext] theorem ext_get {m n : OrderedMap K V} (h : ∀ k, m.get k = n.get k) : m = n := by
  apply ext_entries
  refine entries_ext m.sorted n.sorted ?_
  rintro ⟨k, v⟩
  rw [mem_entries, mem_entries, h k]

theorem erase_of_get_none (m : OrderedMap K V) {k : K} (h : m.get k = none) : m.erase k = m := by
  ext1 j
  rw [get_erase]
  split_ifs with hj
  · rw [← hj, h]
  · rfl

/-- The map with a list of assignments made in order. -/
def putAll (m : OrderedMap K V) (es : List (K × V)) : OrderedMap K V :=
  es.foldl (fun m e => m.put e.1 e.2) m

/-- Assignments that never give a key two values: the key has its value in the
list, or the one it had. -/
theorem get_putAll {es : List (K × V)} {k : K}
    (hfun : ∀ v w, (k, v) ∈ es → (k, w) ∈ es → v = w) (m : OrderedMap K V) (v : V) :
    (m.putAll es).get k = some v ↔ (k, v) ∈ es ∨ (∀ w, (k, w) ∉ es) ∧ m.get k = some v := by
  unfold putAll
  induction es generalizing m with
  | nil => simp
  | cons e es ih =>
      obtain ⟨j, u⟩ := e
      have htail : ∀ v w, (k, v) ∈ es → (k, w) ∈ es → v = w := fun v w hv hw =>
        hfun v w (List.mem_cons_of_mem _ hv) (List.mem_cons_of_mem _ hw)
      rw [List.foldl_cons, ih htail, get_put]
      by_cases hj : j = k
      · subst hj
        have hall : ∀ w, (j, w) ∈ es → w = u := fun w hw =>
          hfun w u (List.mem_cons_of_mem _ hw) List.mem_cons_self
        simp only [if_true, List.mem_cons, Prod.mk.injEq, true_and, Option.some.injEq]
        constructor
        · rintro (h | ⟨-, h⟩)
          · exact .inl (.inr h)
          · exact .inl (.inl h.symm)
        · rintro ((h | h) | ⟨h, -⟩)
          · by_cases hu : (j, u) ∈ es
            · exact .inl (h ▸ hu)
            · exact .inr ⟨fun w hw => hu (hall w hw ▸ hw), h.symm⟩
          · exact .inl h
          · exact absurd (.inl rfl) (h u)
      · simp only [if_neg hj, List.mem_cons, Prod.mk.injEq]
        simp [Ne.symm hj]

end OrderedMap
end MilvusOnprem
