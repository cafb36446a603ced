import Mathlib.Data.List.Basic
import Mathlib.Algebra.GroupWithZero.Nat

/-! Transition systems given by a partial step function. Runs may be restricted to
steps that meet a condition on the state before the step. -/
namespace Temari.Transition
variable {σ α : Type*} {step : σ → α → Option σ} {C D : σ → α → Prop}

/-- The run of a list of actions; an action that is not enabled ends it. -/
def run (step : σ → α → Option σ) (s : σ) (as : List α) : Option σ := as.foldlM step s

theorem run_cons_eq_some {s t : σ} {a : α} {as : List α} :
    run step s (a :: as) = some t ↔ ∃ u, step s a = some u ∧ run step u as = some t := by
  rw [run, List.foldlM_cons, Option.bind_eq_bind, Option.bind_eq_some_iff]
  rfl

/-- t is reached from s by steps that each meet C. -/
inductive Steps (step : σ → α → Option σ) (C : σ → α → Prop) (s : σ) : σ → Prop
  | refl : Steps step C s s
  | tail {t u : σ} {a : α} (h : Steps step C s t) (hc : C t a) (hu : step t a = some u) :
    Steps step C s u

/-- Reached by any steps at all. -/
abbrev Reaches (step : σ → α → Option σ) (s t : σ) : Prop := Steps step (fun _ _ => True) s t

/-- What holds at the start and is kept by every step holds in every state reached. -/
theorem Steps.invariant {I : σ → Prop} {s t : σ} (h : Steps step C s t) (h0 : I s)
    (hs : ∀ t a u, Steps step C s t → I t → C t a → step t a = some u → I u) : I t := by
  induction h with
  | refl => exact h0
  | tail ht hc hu ih => exact hs _ _ _ ht ih hc hu

theorem Steps.mono {s t : σ} (h : Steps step C s t) (hcd : ∀ t a, C t a → D t a) :
    Steps step D s t := by
  induction h with
  | refl => exact .refl
  | tail _ hc hu ih => exact .tail ih (hcd _ _ hc) hu

theorem Steps.trans {s t u : σ} (h : Steps step C s t) (h' : Steps step C t u) :
    Steps step C s u := by
  induction h' with
  | refl => exact h
  | tail _ hc hu ih => exact .tail ih hc hu

/-- The steps that pass a check. -/
def guarded (ok : σ → α → Bool) (step : σ → α → Option σ) (s : σ) (a : α) : Option σ :=
  if ok s a then step s a else none

theorem steps_of_run {ok : σ → α → Bool} {s t : σ} {as : List α}
    (h : run (guarded ok step) s as = some t) : Steps step (fun s a => ok s a = true) s t := by
  induction as generalizing s with
  | nil =>
    cases h
    exact .refl
  | cons a as ih =>
    obtain ⟨u, hu, hrest⟩ := run_cons_eq_some.mp h
    rw [guarded] at hu
    split at hu
    next hok => exact Steps.trans (.tail .refl hok hu) (ih hrest)
    next => cases hu

theorem run_of_guarded {ok : σ → α → Bool} {s t : σ} {as : List α}
    (h : run (guarded ok step) s as = some t) : run step s as = some t := by
  induction as generalizing s with
  | nil => exact h
  | cons a as ih =>
    obtain ⟨u, hu, hrest⟩ := run_cons_eq_some.mp h
    rw [guarded] at hu
    split at hu
    next => exact run_cons_eq_some.mpr ⟨u, hu, ih hrest⟩
    next => cases hu

theorem reaches_of_run {s t : σ} {as : List α} (h : run step s as = some t) :
    Reaches step s t :=
  (@steps_of_run σ α step (fun _ _ => true) s t as h).mono fun _ _ _ => trivial

theorem run_append {s t : σ} {as bs : List α} (h : run step s as = some t) :
    run step s (as ++ bs) = run step t bs := by
  rw [run, List.foldlM_append, ← run, h]
  rfl

section Rank
variable {rank : σ → Nat} {I : σ → Prop}

/-- Where each step pays its cost out of a rank, a run costs no more than the rank at its start
and what its own steps added. -/
theorem run_cost {cost gain : α → Nat} {s t : σ} {as : List α}
    (hstep : ∀ a ∈ as, ∀ s t, I s → step s a = some t → I t ∧ cost a + rank t ≤ rank s + gain a)
    (hs : I s) (h : run step s as = some t) :
    (as.map cost).sum + rank t ≤ rank s + (as.map gain).sum := by
  induction as generalizing s with
  | nil =>
    cases h
    simp
  | cons a as ih =>
    obtain ⟨u, hu, hrest⟩ := run_cons_eq_some.mp h
    obtain ⟨hI, hle⟩ := hstep a List.mem_cons_self s u hs hu
    have hrun := ih (fun b hb => hstep b (List.mem_cons_of_mem a hb)) hI hrest
    simp only [List.map_cons, List.sum_cons]
    omega

/-- Steps of one kind that each lower a rank come to a state in which none of them is enabled. -/
theorem exists_rest {P : α → Prop}
    (hstep : ∀ s a t, I s → P a → step s a = some t → I t ∧ rank t < rank s) {s : σ} (hs : I s) :
    ∃ as t, (∀ a ∈ as, P a) ∧ run step s as = some t ∧ I t ∧ ∀ a, P a → step t a = none := by
  induction hn : rank s using Nat.strongRecOn generalizing s with
  | ind n ih =>
    by_cases hrest : ∀ a, P a → step s a = none
    · exact ⟨[], s, by simp, rfl, hs, hrest⟩
    · simp only [not_forall] at hrest
      obtain ⟨a, ha, hsome⟩ := hrest
      obtain ⟨u, hu⟩ := Option.ne_none_iff_exists'.mp hsome
      obtain ⟨hI, hlt⟩ := hstep s a u hs ha hu
      obtain ⟨as, t, has, hrun, ht⟩ := ih (rank u) (hn ▸ hlt) hI rfl
      exact ⟨a :: as, t, List.forall_mem_cons.mpr ⟨ha, has⟩, run_cons_eq_some.mpr ⟨u, hu, hrun⟩, ht⟩

end Rank

section History
variable {β : Type*} {obs : σ → α → β → β}

/-- Steps beside a history of what they did; the history does not act on them. -/
def recorded (obs : σ → α → β → β) (step : σ → α → Option σ) (x : σ × β) (a : α) :
    Option (σ × β) :=
  (step x.1 a).map fun s => (s, obs x.1 a x.2)

theorem recorded_eq_some {x y : σ × β} {a : α} (h : recorded obs step x a = some y) :
    step x.1 a = some y.1 ∧ y.2 = obs x.1 a x.2 := by
  obtain ⟨s, hs, rfl⟩ := Option.map_eq_some_iff.mp h
  exact ⟨hs, rfl⟩

theorem reaches_of_recorded {x y : σ × β} (h : Reaches (recorded obs step) x y) :
    Reaches step x.1 y.1 := by
  induction h with
  | refl => exact .refl
  | tail _ _ hu ih => exact .tail ih trivial (recorded_eq_some hu).1

/-- Every run has its history. -/
theorem recorded_of_reaches {s t : σ} (h : Reaches step s t) (b : β) :
    ∃ c, Reaches (recorded obs step) (s, b) (t, c) := by
  induction h with
  | refl => exact ⟨b, .refl⟩
  | @tail t u a _ _ hu ih =>
    obtain ⟨c, hc⟩ := ih
    exact ⟨obs t a c, .tail hc trivial (by rw [recorded, hu]; rfl)⟩

end History

end Temari.Transition
