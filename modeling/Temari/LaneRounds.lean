import Temari.Lanes

/-! What the rounds do to the lanes: round1_mid puts the sixteen bytes of the block in place, the
tail and round 2 leave them and the chaining slots alone, and round 3 copies one onto the other. -/
set_option maxRecDepth 8000
namespace Temari.LaneRounds
open RoundMachine Relational InputReads RoundRules RoundWindow StoreTriples Lanes
open Round1 Round2 Round3
variable {r : LaneRun} {ct : Bytes}

theorem round1Mid_lanes {regs : Round1Regs} (hw : Window r ct) (hp : r.pos &&& 15 = 0)
    (hrdi : regs.rdi = rdiMask ^^^ r.pos) (hrsi : regs.rsi = 8 + r.pos) :
    Triple (Seen r laneFacts) (round1Mid r.ctx ct regs) fun _ => Seen r byteFacts := by
  obtain ⟨rdi, rsi, rdx, rcx, r8, r9, rax, rbx, r10, r11, r12, r13, r14, r15, rbp⟩ := regs
  dsimp only at hrdi hrsi
  subst hrdi hrsi
  unfold round1Mid
  dsimp -zeta only
  repeat
    (try extract_lets)
    first
    | with_reducible refine Triple.ctPage hw hp ?_
    | with_reducible refine Triple.ctxb_at ?_
    | with_reducible refine Triple.store_off hp ?_
    | with_reducible refine Triple.store_masked hp ?_
    | with_reducible refine Triple.store_byte ?_
    | with_reducible refine Triple.store_low ?_
    | with_reducible refine Triple.load_off ?_
    | with_reducible refine Triple.load_masked ?_
    | with_reducible refine Triple.store_other ?_
    | with_reducible refine Triple.still fun _ => ?_
  exact Triple.pure fun _ h => h.restrict (by decide +kernel)

theorem round1Tail_lanes (ctx : Bytes) (eax r13 r15 r8 r14 : Word) :
    Triple (Seen r byteFacts) (round1Tail ctx eax r13 r15 r8 r14) fun _ => Seen r byteFacts := by
  unfold round1Tail
  repeat
    (try extract_lets)
    first
    | with_reducible refine Triple.still fun _ => ?_
    | with_reducible refine Triple.store_other ?_
  exact Triple.pure fun _ h => h.restrict (by decide +kernel)

theorem round2Sub6400_lanes (ctx : Bytes)
    (a1 a2 a3 a4 a5 a6 v6 v7 v9 v10 v11 v12 v13 v14 : Word) :
    Triple (Seen r byteFacts) (round2Sub6400 ctx a1 a2 a3 a4 a5 a6 v6 v7 v9 v10 v11 v12 v13 v14)
      fun _ => Seen r byteFacts := by
  unfold round2Sub6400
  repeat
    (try extract_lets)
    first
    | with_reducible refine Triple.still fun _ => ?_
    | with_reducible refine Triple.store_other ?_
  exact Triple.pure fun _ h => h.restrict (by decide +kernel)

/-- The facts after the copies. -/
def copyFacts (K : Facts LaneFact) : List (Nat × Nat) → Facts LaneFact
  | [] => K
  | (dst, _) :: cs => copyFacts ((dst, .byte) :: K) cs

/-- Each copy goes from a byte of the block to the slot of its lane. -/
def copiesInLane (K : Facts LaneFact) : List (Nat × Nat) → Bool
  | [] => true
  | (dst, src) :: cs => decide (K.lookup src = some .byte) && decide (laneOf dst = laneOf src) &&
      copiesInLane ((dst, .byte) :: K) cs

theorem copies_lanes (cs : List (Nat × Nat)) (K : Facts LaneFact) (hK : copiesInLane K cs = true) :
    Triple (Seen r K)
      (cs.forM fun (dst, src) => do
        store dst ((← load dst) &&& 0xFFFFFF00 ||| (← load src) &&& 0xFF))
      fun _ => Seen r (copyFacts K cs) := by
  induction cs generalizing K with
  | nil => exact Triple.pure fun _ h => h
  | cons c cs ih =>
    obtain ⟨dst, src⟩ := c
    simp only [copiesInLane, Bool.and_eq_true, decide_eq_true_eq] at hK
    obtain ⟨⟨hsrc, hlane⟩, hrest⟩ := hK
    simp only [List.forM, bind_assoc]
    refine Triple.read_any fun a => Triple.read_tag .byte hsrc fun b hb => ?_
    refine Triple.merge_byte ?_ (ih _ hrest)
    rw [hlane]
    exact wordByte_of_low hb

theorem round3Sub8000_lanes (ctx : Bytes) (a2 a3 a4 a5 a6 v6 v8 v9 v10 v11 v12 : Word) :
    Triple (Seen r byteFacts) (round3Sub8000 ctx a2 a3 a4 a5 a6 v6 v8 v9 v10 v11 v12)
      fun _ => Seen r copiedFacts := by
  unfold round3Sub8000
  repeat
    (try extract_lets)
    first
    | with_reducible refine Triple.still fun _ => ?_
    | with_reducible refine Triple.store_other ?_
  (try extract_lets)
  refine Triple.bind (copies_lanes chainCopies _ (by decide +kernel)) fun _ => ?_
  exact Triple.pure fun _ h => h.restrict (by decide +kernel)

end Temari.LaneRounds
