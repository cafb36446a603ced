import Temari.RoundRules
import Temari.Round2

/-! Two runs of round 2 from states that agree on this block's bytes. -/
set_option maxRecDepth 4000
namespace Temari.Round2Sim
open RoundMachine Relational RoundRules Round2
variable {r : Runs}

theorem round2Sub6400_sim {ctx ctx' : Bytes} (hctx : SameTable ctx ctx')
    (a1 a2 a3 a4 a5 a6 v6 v7 v9 v10 v11 v12 v13 v14 : Word) :
    Sim (Holds (SlotFact.den r) tailFacts)
    (round2Sub6400 ctx a1 a2 a3 a4 a5 a6 v6 v7 v9 v10 v11 v12 v13 v14)
      (round2Sub6400 ctx' a1 a2 a3 a4 a5 a6 v6 v7 v9 v10 v11 v12 v13 v14)
      (fun a b s t => a = b ∧ Holds (SlotFact.den r) round2Facts s t) := by
  unfold round2Sub6400
  repeat
    (try extract_lets)
    first
    | with_reducible refine Sim.lookup hctx fun _ => ?_
    | with_reducible refine Sim.load_same fun _ => ?_
    | with_reducible refine Sim.store_eq ?_
  refine Sim.pure fun s t h => ⟨rfl, h.restrict ?_⟩
  decide +kernel

end Temari.Round2Sim
