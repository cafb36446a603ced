import Mathlib.Data.List.Basic

/-! A line that takes items while it is open, works each with f, and hands the results out
in order. The line may report its end once it is closed and empty. -/
namespace Temari.Conveyor
variable {α β : Type*}

structure Line (α β : Type*) where
  isOpen : Bool
  accepted : List α
  /-- Results still in the line. -/
  waiting : List β
  delivered : List β
  /-- The end has been reported. -/
  ended : Bool

def Line.start : Line α β := ⟨true, [], [], [], false⟩

namespace Line
variable (l : Line α β)

def accept (f : α → β) (a : α) : Line α β :=
  { l with accepted := l.accepted ++ [a], waiting := l.waiting ++ [f a] }

def deliver (b : β) (rest : List β) : Line α β :=
  { l with waiting := rest, delivered := l.delivered ++ [b] }

def close : Line α β := { l with isOpen := false }

def stop : Line α β := { l with ended := true }

end Line

inductive Step (f : α → β) (l : Line α β) : Line α β → Prop
  | accept (a : α) (h : l.isOpen = true) : Step f l (l.accept f a)
  | deliver (b : β) (rest : List β) (h : l.waiting = b :: rest) : Step f l (l.deliver b rest)
  | close : Step f l l.close
  | stop (h : l.isOpen = false) (hw : l.waiting = []) : Step f l l.stop

/-- Nothing is lost, doubled or out of order. -/
structure Inv (f : α → β) (l : Line α β) : Prop where
  order : l.delivered ++ l.waiting = l.accepted.map f
  ended : l.ended = true → l.isOpen = false ∧ l.waiting = []

variable {f : α → β} {l l' : Line α β}

theorem inv_start : Inv f (Line.start : Line α β) := ⟨rfl, by simp [Line.start]⟩

theorem Inv.step (h : Inv f l) (hs : Step f l l') : Inv f l' := by
  cases hs with
  | accept a hopen =>
    refine ⟨?_, fun hend => ?_⟩
    · simp only [Line.accept, List.map_append, ← h.order, List.append_assoc, List.map_singleton]
    · exact absurd (hopen.symm.trans (h.ended hend).1) (by decide)
  | deliver b rest hw =>
    refine ⟨?_, fun hend => ?_⟩
    · have ho := h.order
      rw [hw] at ho
      simpa [Line.deliver] using ho
    · exact absurd (hw.symm.trans (h.ended hend).2) (by simp)
  | close => exact ⟨h.order, fun hend => ⟨rfl, (h.ended hend).2⟩⟩
  | stop hclosed hw => exact ⟨h.order, fun _ => ⟨hclosed, hw⟩⟩

theorem Inv.front (h : Inv f l) : l.delivered <+: l.accepted.map f := ⟨l.waiting, h.order⟩

/-- Whoever has seen the end has been handed everything. -/
theorem Inv.complete (h : Inv f l) (hend : l.ended = true) :
    l.isOpen = false ∧ l.delivered = l.accepted.map f := by
  obtain ⟨hclosed, hw⟩ := h.ended hend
  refine ⟨hclosed, ?_⟩
  rw [← h.order, hw, List.append_nil]

end Temari.Conveyor
