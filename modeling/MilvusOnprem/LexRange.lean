import Mathlib.Data.List.Lex
import Mathlib.Data.List.Infix
import Mathlib.Order.Cover

/-!
# Ranges of lists and prefixes

In the lexicographic order the lists with a prefix form an interval: from the prefix to
the prefix with a next last element. Where elements are written by a code none of whose
words begins another one, prefixes can be found in the written lists.
-/
namespace MilvusOnprem.LexRange

/-- From a prefix up to the same one with the next last element are the lists with this
prefix. -/
theorem between_iff_prefix {α : Type*} [LT α] [Std.Asymm (· < · : α → α → Prop)]
    [Std.Trichotomous (· < · : α → α → Prop)] {c d : α} (h : c ⋖ d) (p k : List α) :
    p ++ [c] ≤ k ∧ k < p ++ [d] ↔ p ++ [c] <+: k := by
  induction p generalizing k with
  | nil =>
      cases k with
      | nil => simp
      | cons a k =>
          rw [List.nil_append, List.nil_append, List.cons_le_cons_iff, List.cons_lt_cons_iff,
            List.cons_prefix_cons]
          constructor
          · rintro ⟨hca, had⟩
            have hlt : a < d := had.resolve_right fun hk => List.not_lt_nil k hk.2
            have heq : c = a := by
              rcases hca with hca | ⟨heq, -⟩
              · exact absurd hlt (h.2 hca)
              · exact heq
            exact ⟨heq, List.nil_prefix⟩
          · rintro ⟨rfl, -⟩
            exact ⟨.inr ⟨rfl, List.nil_le k⟩, .inl h.1⟩
  | cons b p ih =>
      cases k with
      | nil => simp
      | cons a k =>
          rw [List.cons_append, List.cons_append, List.cons_le_cons_iff, List.cons_lt_cons_iff,
            List.cons_prefix_cons]
          constructor
          · rintro ⟨hba, hab⟩
            rcases hba with hba | ⟨rfl, hle⟩
            · rcases hab with hab | ⟨rfl, -⟩
              · exact absurd hba (Std.Asymm.asymm _ _ hab)
              · exact absurd hba (Std.Irrefl.irrefl _)
            · rcases hab with hab | ⟨-, hlt⟩
              · exact absurd hab (Std.Irrefl.irrefl _)
              · exact ⟨rfl, (ih k).mp ⟨hle, hlt⟩⟩
          · rintro ⟨rfl, hprefix⟩
            obtain ⟨hle, hlt⟩ := (ih k).mpr hprefix
            exact ⟨.inr ⟨rfl, hle⟩, .inr ⟨rfl, hlt⟩⟩

/-- No word of the code is empty or begins another one. -/
structure PrefixFree {α β : Type*} (code : α → List β) : Prop where
  ne_nil : ∀ a, code a ≠ []
  eq_of_prefix : ∀ a b, code a <+: code b → a = b

theorem flatMap_prefix_iff {α β : Type*} {code : α → List β} (h : PrefixFree code) (s t : List α) :
    s.flatMap code <+: t.flatMap code ↔ s <+: t := by
  induction s generalizing t with
  | nil => simp
  | cons a s ih =>
      cases t with
      | nil => simp [h.ne_nil a]
      | cons b t =>
          rw [List.flatMap_cons, List.flatMap_cons, List.cons_prefix_cons]
          constructor
          · intro hprefix
            have hword : a = b := by
              have ha : code a <+: code b ++ t.flatMap code := (List.prefix_append _ _).trans hprefix
              rcases List.prefix_or_prefix_of_prefix ha (List.prefix_append _ _) with hab | hba
              · exact h.eq_of_prefix a b hab
              · exact (h.eq_of_prefix b a hba).symm
            subst hword
            exact ⟨rfl, (ih t).mp ((List.prefix_append_right_inj _).mp hprefix)⟩
          · rintro ⟨rfl, hprefix⟩
            exact (List.prefix_append_right_inj _).mpr ((ih t).mpr hprefix)

end MilvusOnprem.LexRange
