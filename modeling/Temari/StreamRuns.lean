import Temari.StreamOrder

/-! The shape of the answers of a whole run: no plaintext follows the end. -/
namespace Temari.StreamRuns
open RoundMachine Rounds Temari.Stream StreamMoves StreamOrder Transition Conveyor
variable {κ : Type} [DecidableEq κ] {tmpl : Template} {batchSize : Nat} {s : State κ}

/-- Once the end has been reported, no plaintext follows. -/
def Final (answers : List Answer) : Prop :=
  ∀ before a after, answers = before ++ a :: after → a.isEnd = true →
    ∀ b ∈ after, b.plain = none

theorem final_concat {answers : List Answer} {a : Answer} (h : Final answers)
    (ha : answers.any Answer.isEnd = true → a.plain = none) : Final (answers ++ [a]) := by
  intro before e after heq hend b hb
  obtain rfl | ⟨rest, last, rfl⟩ := List.eq_nil_or_concat after
  · cases hb
  · rw [List.concat_eq_append, ← List.cons_append, ← List.append_assoc] at heq
    obtain ⟨heq, hlast⟩ := List.append_inj' heq rfl
    rw [List.concat_eq_append, List.mem_append] at hb
    obtain hb | hb := hb
    · exact h before e rest heq hend b hb
    · rw [List.mem_singleton.mp hb, ← (List.cons.inj hlast).1]
      exact ha (by rw [heq]; simp [hend])

theorem reached_final (hret : Returns tmpl)
    (h : Reaches (step tmpl batchSize) (initial : State κ) s) : Final s.answers := by
  refine h.invariant (I := fun s => Final s.answers) (by simp [Final, initial]) ?_
  intro t a u ht ih _ hu
  cases step_move hu with
  | client k u hc => cases hc <;> exact ih
  | coord timeout u hc => cases hc <;> exact ih
  | give _ ans p rest hans hq =>
    refine final_concat ih fun hend => ?_
    have hwait := ((StreamOrder.reached_inv hret ht).2.ended hend).2
    simp [lineOf, hq] at hwait
  | stop _ ans hans hq hend =>
    exact final_concat ih fun _ => by obtain rfl | rfl := hans <;> rfl
  | pending hq => exact final_concat ih fun _ => rfl
  | _ => exact ih

end Temari.StreamRuns
