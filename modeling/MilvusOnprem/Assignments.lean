import Mathlib.Data.List.Nodup

/-!
# Lists of assignments

A list of assignments in the order in which they are made, and what a reader
makes of it that keeps the first one of a key or the last one.
-/
namespace MilvusOnprem.Assignments

variable {K V : Type*} [DecidableEq K] {k : K} {v : V} {xs ys es : List (K × V)}

/-- The value of the first assignment to a key. -/
def first (k : K) (es : List (K × V)) : Option V := (es.find? fun e => e.1 = k).map Prod.snd

/-- The value of the last assignment to a key. -/
def last (k : K) (es : List (K × V)) : Option V := first k es.reverse

@[simp] theorem first_nil : first k ([] : List (K × V)) = none := rfl

@[simp] theorem last_nil : last k ([] : List (K × V)) = none := rfl

theorem first_cons (e : K × V) (es : List (K × V)) :
    first k (e :: es) = if e.1 = k then some e.2 else first k es := by
  unfold first
  split_ifs with h
  · rw [List.find?_cons_of_pos (by simpa using h), Option.map_some]
  · rw [List.find?_cons_of_neg (by simpa using h)]

theorem first_append (xs ys : List (K × V)) : first k (xs ++ ys) = (first k xs).or (first k ys) := by
  unfold first
  rw [List.find?_append]
  cases xs.find? fun e => e.1 = k <;> simp

theorem last_append (xs ys : List (K × V)) : last k (xs ++ ys) = (last k ys).or (last k xs) := by
  unfold last
  rw [List.reverse_append, first_append]

@[simp] theorem first_singleton (e : K × V) : first k [e] = if e.1 = k then some e.2 else none := by
  rw [first_cons, first_nil]

@[simp] theorem last_singleton (e : K × V) : last k [e] = if e.1 = k then some e.2 else none := by
  rw [last, List.reverse_singleton, first_singleton]

theorem first_of_forall (h : ∀ e ∈ es, e.1 = k) : first k es = es.head?.map Prod.snd := by
  cases es with
  | nil => rfl
  | cons e es => rw [first_cons, if_pos (h e List.mem_cons_self)]; rfl

theorem last_cons (e : K × V) (es : List (K × V)) :
    last k (e :: es) = (last k es).or (if e.1 = k then some e.2 else none) := by
  rw [← List.singleton_append, last_append, last_singleton]

theorem first_eq_none : first k es = none ↔ ∀ e ∈ es, e.1 ≠ k := by
  simp [first]

theorem last_eq_none : last k es = none ↔ ∀ e ∈ es, e.1 ≠ k := by
  simp [last, first_eq_none]

/-- With different keys the place of an assignment does not matter. -/
theorem first_of_mem (hkeys : (es.map Prod.fst).Nodup) (h : (k, v) ∈ es) : first k es = some v := by
  induction es with
  | nil => cases h
  | cons e es ih =>
      rw [List.map_cons, List.nodup_cons] at hkeys
      rw [first_cons]
      rcases List.mem_cons.mp h with rfl | h
      · exact if_pos rfl
      · have hne : e.1 ≠ k := by
          rintro rfl
          exact hkeys.1 (List.mem_map.mpr ⟨_, h, rfl⟩)
        rw [if_neg hne, ih hkeys.2 h]

theorem last_of_mem (hkeys : (es.map Prod.fst).Nodup) (h : (k, v) ∈ es) : last k es = some v := by
  apply first_of_mem _ (List.mem_reverse.mpr h)
  rw [List.map_reverse]
  exact List.nodup_reverse.mpr hkeys

theorem mem_of_first (h : first k es = some v) : (k, v) ∈ es := by
  obtain ⟨⟨k', v'⟩, hfind, rfl⟩ := Option.map_eq_some_iff.mp h
  have hkey := List.find?_some hfind
  rw [decide_eq_true_eq] at hkey
  subst hkey
  exact List.mem_of_find?_eq_some hfind

theorem mem_of_last (h : last k es = some v) : (k, v) ∈ es := List.mem_reverse.mp (mem_of_first h)

end MilvusOnprem.Assignments
