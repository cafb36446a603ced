import Mathlib.Logic.Function.Basic
import Mathlib.Data.List.Basic

/-! A slot that is overwritten with one item after the other, and readers that count the items
they take and compare the count with the number of items published. A reader that comes late
misses items and takes the newest one several times. -/
namespace Temari.NumberedSlot
variable {α ρ : Type*} [DecidableEq ρ]

structure Board (α ρ : Type*) where
  published : List α
  /-- The items each reader took, in order. -/
  picked : ρ → List α

def Board.start : Board α ρ := ⟨[], fun _ => []⟩

namespace Board
variable (b : Board α ρ)

/-- The item in the slot. -/
def slot : Option α := b.published.getLast?

def publish (x : α) : Board α ρ := { b with published := b.published ++ [x] }

def pick (r : ρ) (x : α) : Board α ρ :=
  { b with picked := Function.update b.picked r (b.picked r ++ [x]) }

end Board

inductive Step (b : Board α ρ) : Board α ρ → Prop
  | publish (x : α) : Step b (b.publish x)
  | pick (r : ρ) (x : α) (hx : b.slot = some x)
    (hne : (b.picked r).length ≠ b.published.length) : Step b (b.pick r x)

/-- No reader's count is ahead, and a reader whose count is level took the newest item last. -/
structure Behind (b : Board α ρ) : Prop where
  le : ∀ r, (b.picked r).length ≤ b.published.length
  level : ∀ r, (b.picked r).length = b.published.length → (b.picked r).getLast? = b.slot

variable {b b' : Board α ρ}

omit [DecidableEq ρ] in
theorem behind_start : Behind (Board.start : Board α ρ) := ⟨fun _ => Nat.le_refl _, fun _ _ => rfl⟩

omit [DecidableEq ρ] in
theorem Behind.publish (h : Behind b) (x : α) : Behind (b.publish x) := by
  have hlt (r : ρ) : (b.picked r).length < (b.publish x).published.length := by
    rw [Board.publish, List.length_append]
    exact Nat.lt_succ_of_le (h.le r)
  exact ⟨fun r => Nat.le_of_lt (hlt r), fun r heq => absurd heq (Nat.ne_of_lt (hlt r))⟩

theorem Behind.pick (h : Behind b) {r : ρ} {x : α} (hx : b.slot = some x)
    (hne : (b.picked r).length ≠ b.published.length) : Behind (b.pick r x) := by
  have hself : (b.pick r x).picked r = b.picked r ++ [x] := Function.update_self ..
  have hother {q : ρ} (hq : q ≠ r) :
    (b.pick r x).picked q = b.picked q := Function.update_of_ne hq ..
  refine ⟨fun q => ?_, fun q hlevel => ?_⟩ <;> by_cases hq : q = r
  · subst hq
    rw [hself, List.length_append]
    exact Nat.lt_of_le_of_ne (h.le q) hne
  · rw [hother hq]
    exact h.le q
  · subst hq
    rw [hself, List.getLast?_concat]
    exact hx.symm
  · rw [hother hq] at hlevel ⊢
    exact h.level q hlevel

theorem Behind.step (h : Behind b) (hs : Step b b') : Behind b' := by
  cases hs with
  | publish x => exact h.publish x
  | pick r x hx hne => exact h.pick hx hne

end Temari.NumberedSlot
