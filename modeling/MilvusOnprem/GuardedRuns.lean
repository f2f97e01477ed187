import Mathlib.Data.List.Basic
import Mathlib.Logic.Function.Basic

/-!
# Runs of a partial step function

A system is a function `step : S → A → Option S`: the action carries every
choice the system does not make itself, and `none` means that the action is not
enabled. A run is a list of actions, so an interleaving of several parties is a
list whose entries name the party that moves.

A guard is a condition on the state before a step and on its action. `Keeps`
says that every step of a run meets the guard, and the rules below carry an
invariant over such a run from what one guarded step preserves.
-/
namespace MilvusOnprem.GuardedRuns

variable {S A : Type*} {step : S → A → Option S}

/-- The state after a list of actions, or `none` once one is not enabled. -/
def run (step : S → A → Option S) : S → List A → Option S
  | s, [] => some s
  | s, a :: as => (step s a).bind fun t => run step t as

@[simp] theorem run_nil (s : S) : run step s [] = some s := rfl

theorem run_cons {s u : S} {a : A} {as : List A} :
    run step s (a :: as) = some u ↔ ∃ t, step s a = some t ∧ run step t as = some u := by
  simp only [run, Option.bind_eq_some_iff]

theorem run_append {s u : S} {as bs : List A} :
    run step s (as ++ bs) = some u ↔ ∃ t, run step s as = some t ∧ run step t bs = some u := by
  induction as generalizing s with
  | nil => simp
  | cons a as ih =>
      simp only [List.cons_append, run_cons, ih]
      constructor
      · rintro ⟨t, ht, v, hv, hu⟩
        exact ⟨v, ⟨t, ht, hv⟩, hu⟩
      · rintro ⟨v, ⟨t, ht, hv⟩, hu⟩
        exact ⟨t, ht, v, hv, hu⟩

/-- Every step of the run from `s` meets the guard in the state it starts from. -/
def Keeps (step : S → A → Option S) (guard : S → A → Prop) : S → List A → Prop
  | _, [] => True
  | s, a :: as => guard s a ∧ ∀ t, step s a = some t → Keeps step guard t as

/-- A run in which the guard is checked at every step, to evaluate a given run. -/
instance decidableKeeps (guard : S → A → Prop) [∀ s a, Decidable (guard s a)] :
    ∀ (s : S) (as : List A), Decidable (Keeps step guard s as)
  | _, [] => .isTrue trivial
  | s, a :: as =>
      match h : step s a with
      | none =>
          decidable_of_iff (guard s a) ⟨fun g => ⟨g, fun t ht => by rw [h] at ht; cases ht⟩,
            fun g => g.1⟩
      | some t =>
          haveI := decidableKeeps guard t as
          decidable_of_iff (guard s a ∧ Keeps step guard t as)
            ⟨fun g => ⟨g.1, fun u hu => by rw [h] at hu; cases hu; exact g.2⟩,
              fun g => ⟨g.1, g.2 t h⟩⟩

theorem keeps_append {guard : S → A → Prop} {s t : S} {as bs : List A}
    (h : Keeps step guard s (as ++ bs)) (ht : run step s as = some t) :
    Keeps step guard t bs := by
  induction as generalizing s with
  | nil => cases ht; exact h
  | cons a as ih =>
      obtain ⟨u, hu, hr⟩ := run_cons.mp ht
      exact ih (h.2 u hu) hr

theorem keeps_of_append {guard : S → A → Prop} {s : S} {as bs : List A}
    (h : Keeps step guard s (as ++ bs)) : Keeps step guard s as := by
  induction as generalizing s with
  | nil => trivial
  | cons a as ih => exact ⟨h.1, fun t ht => ih (h.2 t ht)⟩

/-- The step function that refuses a step against the guard. -/
def checked (step : S → A → Option S) (guard : S → A → Bool) (s : S) (a : A) : Option S :=
  if guard s a then step s a else none

/-- A run of the checked steps is a run that meets the guard. -/
theorem keeps_of_checked {guard : S → A → Bool} {s u : S} {as : List A}
    (h : run (checked step guard) s as = some u) :
    Keeps step (fun s a => guard s a = true) s as ∧ run step s as = some u := by
  induction as generalizing s with
  | nil => exact ⟨trivial, h⟩
  | cons a as ih =>
      obtain ⟨t, ht, hr⟩ := run_cons.mp h
      unfold checked at ht
      split_ifs at ht with hguard
      obtain ⟨hkeeps, hrun⟩ := ih hr
      refine ⟨⟨hguard, fun t' ht' => ?_⟩, run_cons.mpr ⟨t, ht, hrun⟩⟩
      cases ht.symm.trans ht'
      exact hkeeps

theorem keeps_and {guard guard' : S → A → Prop} {s : S} {as : List A}
    (h : Keeps step guard s as) (h' : Keeps step guard' s as) :
    Keeps step (fun s a => guard s a ∧ guard' s a) s as := by
  induction as generalizing s with
  | nil => trivial
  | cons a as ih => exact ⟨⟨h.1, h'.1⟩, fun t ht => ih (h.2 t ht) (h'.2 t ht)⟩

/-- A condition on the actions of a run, added to its guard. -/
theorem keeps_and_forall {guard : S → A → Prop} {P : A → Prop} {s : S} {as : List A}
    (h : Keeps step guard s as) (hP : ∀ a ∈ as, P a) :
    Keeps step (fun s a => guard s a ∧ P a) s as := by
  refine keeps_and h ?_
  clear h
  induction as generalizing s with
  | nil => trivial
  | cons a as ih =>
      exact ⟨hP a List.mem_cons_self, fun t _ => ih fun b hb => hP b (List.mem_cons_of_mem a hb)⟩

/-- What one guarded step preserves, a guarded run preserves. -/
theorem run_guarded {guard : S → A → Prop} {I : S → Prop}
    (hstep : ∀ s a t, I s → guard s a → step s a = some t → I t)
    {s u : S} {as : List A} (hs : I s) (hg : Keeps step guard s as)
    (hr : run step s as = some u) : I u := by
  induction as generalizing s with
  | nil => cases hr; exact hs
  | cons a as ih =>
      obtain ⟨t, ht, hu⟩ := run_cons.mp hr
      exact ih (hstep s a t hs hg.1 ht) (hg.2 t ht) hu

/-- A guard that fails exactly at the steps into a bad state: a run meets it at
every step if and only if it never reaches a bad state. -/
theorem keeps_iff_never {guard : S → A → Prop} {I Bad : S → Prop}
    (hI : ∀ s a t, I s → step s a = some t → I t)
    (hbad : ∀ s a t, I s → ¬Bad s → step s a = some t → (Bad t ↔ ¬guard s a))
    {s u : S} {as : List A} (hs : I s) (h₀ : ¬Bad s) (hr : run step s as = some u) :
    Keeps step guard s as ↔ ∀ bs t, bs <+: as → run step s bs = some t → ¬Bad t := by
  induction as generalizing s with
  | nil =>
      refine ⟨fun _ bs t hbs hrun => ?_, fun _ => trivial⟩
      rw [List.prefix_nil.mp hbs, run_nil, Option.some.injEq] at hrun
      exact hrun ▸ h₀
  | cons a as ih =>
      obtain ⟨t, ht, hu⟩ := run_cons.mp hr
      have hfirst := hbad s a t hs h₀ ht
      constructor
      · rintro ⟨hg, hkeeps⟩ bs v hbs hrun
        have hnot : ¬Bad t := fun hb => hfirst.mp hb hg
        cases bs with
        | nil =>
            rw [run_nil, Option.some.injEq] at hrun
            exact hrun ▸ h₀
        | cons b bs =>
            obtain ⟨rfl, hrest⟩ := List.cons_prefix_cons.mp hbs
            obtain ⟨t', ht', hrun⟩ := run_cons.mp hrun
            cases ht.symm.trans ht'
            exact (ih (hI s b t hs ht) hnot hu).mp (hkeeps t ht) bs v hrest hrun
      · intro hnever
        have hnot : ¬Bad t :=
          hnever [a] t (List.cons_prefix_cons.mpr ⟨rfl, List.nil_prefix⟩) (run_cons.mpr ⟨t, ht, rfl⟩)
        refine ⟨not_not.mp fun hg => hnot (hfirst.mpr hg), fun t' ht' => ?_⟩
        cases ht.symm.trans ht'
        refine (ih (hI s a t hs ht) hnot hu).mpr fun bs v hbs hrun => ?_
        exact hnever (a :: bs) v (List.cons_prefix_cons.mpr ⟨rfl, hbs⟩) (run_cons.mpr ⟨t, ht, hrun⟩)

/-- What every step preserves, every run preserves. -/
theorem run_invariant {I : S → Prop}
    (hstep : ∀ s a t, I s → step s a = some t → I t)
    {s u : S} {as : List A} (hs : I s) (hr : run step s as = some u) : I u := by
  induction as generalizing s with
  | nil => cases hr; exact hs
  | cons a as ih =>
      obtain ⟨t, ht, hu⟩ := run_cons.mp hr
      exact ih (hstep s a t hs ht) hu

/-! ## What a run can reach -/

def Reaches (step : S → A → Option S) (s t : S) : Prop := ∃ as, run step s as = some t

theorem Reaches.refl (step : S → A → Option S) (s : S) : Reaches step s s := ⟨[], rfl⟩

theorem Reaches.head {s u t : S} {a : A} (h : step s a = some u) (ht : Reaches step u t) :
    Reaches step s t := by
  obtain ⟨as, hr⟩ := ht
  exact ⟨a :: as, run_cons.mpr ⟨u, h, hr⟩⟩

theorem Reaches.trans {s t u : S} (hst : Reaches step s t) (htu : Reaches step t u) :
    Reaches step s u := by
  obtain ⟨as, hr⟩ := hst
  obtain ⟨bs, hr'⟩ := htu
  exact ⟨as ++ bs, run_append.mpr ⟨t, hr, hr'⟩⟩

/-! ## What happened in a run -/

/-- The steps of a run, each with the state it starts from. -/
def trace (step : S → A → Option S) : S → List A → List (S × A)
  | _, [] => []
  | s, a :: as => (s, a) :: match step s a with
      | some t => trace step t as
      | none => []

theorem trace_cons {s t : S} {a : A} {as : List A} (h : step s a = some t) :
    trace step s (a :: as) = (s, a) :: trace step t as := by
  simp only [trace, h]

/-- What every guarded step preserves holds before each step of a guarded run. -/
theorem before_steps {guard : S → A → Prop} {I : S → Prop}
    (hstep : ∀ s a t, I s → guard s a → step s a = some t → I t) {s u : S} {as : List A}
    (hs : I s) (hg : Keeps step guard s as) (hr : run step s as = some u) :
    ∀ x ∈ trace step s as, I x.1 := by
  induction as generalizing s with
  | nil =>
      intro x hx
      cases hx
  | cons a as ih =>
      obtain ⟨t, ht, hu⟩ := run_cons.mp hr
      rw [trace_cons ht]
      exact List.forall_mem_cons.mpr ⟨hs, ih (hstep s a t hs hg.1 ht) (hg.2 t ht) hu⟩

/-- The steps of a guarded run meet the guard. -/
theorem keeps_trace {guard : S → A → Prop} {s u : S} {as : List A} (hg : Keeps step guard s as)
    (hr : run step s as = some u) : ∀ x ∈ trace step s as, guard x.1 x.2 := by
  induction as generalizing s with
  | nil =>
      intro x hx
      cases hx
  | cons a as ih =>
      obtain ⟨t, ht, hu⟩ := run_cons.mp hr
      rw [trace_cons ht]
      exact List.forall_mem_cons.mpr ⟨hg.1, ih (hg.2 t ht) hu⟩

/-- A relation between a state and the steps that led to it: what one step
preserves when it is appended to the steps before it, a run preserves. -/
theorem run_history {I : S → List (S × A) → Prop}
    (hstep : ∀ s past a t, I s past → step s a = some t → I t (past ++ [(s, a)]))
    {s u : S} {as : List A} (hs : I s []) (hr : run step s as = some u) :
    I u (trace step s as) := by
  have hgen : ∀ (as : List A) (s : S) (past : List (S × A)), I s past →
      run step s as = some u → I u (past ++ trace step s as) := by
    intro as
    induction as with
    | nil =>
        intro s past hs hr
        cases hr
        rwa [trace, List.append_nil]
    | cons a as ih =>
        intro s past hs hr
        obtain ⟨t, ht, hu⟩ := run_cons.mp hr
        have hnext := ih t (past ++ [(s, a)]) (hstep s past a t hs ht) hu
        rwa [List.append_assoc, List.singleton_append, ← trace_cons ht] at hnext
  exact hgen as s [] hs hr

/-- The states a run can reach from an initial one. -/
def Reachable (step : S → A → Option S) (init : S → Prop) (s : S) : Prop :=
  ∃ s₀ as, init s₀ ∧ run step s₀ as = some s

theorem Reachable.invariant {init I : S → Prop} (hinit : ∀ s, init s → I s)
    (hstep : ∀ s a t, I s → step s a = some t → I t) {s : S}
    (h : Reachable step init s) : I s := by
  obtain ⟨s₀, as, h₀, hr⟩ := h
  exact run_invariant hstep (hinit s₀ h₀) hr

end MilvusOnprem.GuardedRuns
