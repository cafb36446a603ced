import Temari.RoundRules
import Temari.Round3

/-! Two runs of round 3: the offsets follow the position, the bytes follow the chaining
slots, and the chaining slots are refreshed from this block. -/
set_option maxRecDepth 8000
namespace Temari.Round3Sim
open RoundMachine Relational RoundRules Round3
variable {r : Runs}

/-- The offsets of the sixteen pairs; the ninth comes from the counter. -/
def offsets (pos counter : Word) : List Word :=
  [pos + 0, pos + 1, pos + 2, pos + 3, pos + 4, pos + 5, pos + 6, pos + 7, counter, pos + 9,
    pos + 10, pos + 11, pos + 12, pos + 13, pos + 14, pos + 15]

structure PtRel (r : Runs) (p q : Vector (Word × UInt8) 16) : Prop where
  fst : p.toList.map Prod.fst = offsets r.pos r.counter
  fst' : q.toList.map Prod.fst = offsets r.pos' r.counter'
  snd : List.Forall₂ (fun x y => r.chained → x.2 = y.2) p.toList q.toList

theorem low_xor {p : Prop} {a b : Word} (h : p → a &&& 0xFF = b &&& 0xFF) (z : Word) :
    p → (a ^^^ z) &&& 0xFF = (b ^^^ z) &&& 0xFF := by
  intro hp
  have e (x : Word) : (x ^^^ z) &&& 0xFF = (x &&& 0xFF) ^^^ (z &&& 0xFF) := by
    apply BitVec.eq_of_getLsbD_eq
    intro i hi
    simp only [BitVec.getLsbD_xor, BitVec.getLsbD_and]
    cases x.getLsbD i <;> cases z.getLsbD i <;> simp
  rw [e, e, h hp]

theorem low_congr {p : Prop} {a b z c : Word} (h : p → a &&& 0xFF = b &&& 0xFF) :
    p → (a &&& 0xFF) ^^^ z ^^^ c = (b &&& 0xFF) ^^^ z ^^^ c := fun hp => by rw [h hp]

/-- The facts after the copies. -/
def copyFacts (K : Facts SlotFact) : List (Nat × Nat) → Facts SlotFact
  | [] => K
  | (dst, _) :: cs => copyFacts ((dst, .low) :: K) cs

/-- Each copy reads a slot whose low byte is known by then. -/
def copiesKnown (K : Facts SlotFact) : List (Nat × Nat) → Bool
  | [] => true
  | (dst, src) :: cs => decide (dst < stSize) && decide (src < stSize) &&
      (K.lookup src).any (fun e => decide (e = .eq ∨ e = .low)) && copiesKnown ((dst, .low) :: K) cs

theorem copies_sim (cs : List (Nat × Nat)) (K : Facts SlotFact) (hK : copiesKnown K cs = true) :
    Sim (Holds (SlotFact.den r) K)
      (cs.forM fun (dst, src) => do
        store dst ((← load dst) &&& 0xFFFFFF00 ||| (← load src) &&& 0xFF))
      (cs.forM fun (dst, src) => do
        store dst ((← load dst) &&& 0xFFFFFF00 ||| (← load src) &&& 0xFF))
      (fun _ _ => Holds (SlotFact.den r) (copyFacts K cs)) := by
  induction cs generalizing K with
  | nil => exact Sim.pure fun _ _ h => h
  | cons c cs ih =>
    obtain ⟨dst, src⟩ := c
    simp only [copiesKnown, Bool.and_eq_true, decide_eq_true_eq] at hK
    obtain ⟨⟨⟨hdst, hsrc⟩, hany⟩, hrest⟩ := hK
    obtain ⟨e, he, hel⟩ := (Option.any_eq_true _ _).mp hany
    simp only [List.forM, bind_assoc]
    refine Sim.read_any (fun a b => ?_) hdst
    refine Sim.read_tag e hsrc he fun x y hxy => ?_
    have hlow : x &&& 0xFF = y &&& 0xFF := by
      obtain rfl | rfl := of_decide_eq_true hel
      · rw [show x = y from hxy]
      · exact hxy
    exact Sim.store_low hlow (ih _ hrest) hdst

theorem pt_byte {p : Prop} {v w : Word} (h : p → v = w) :
    p → wordByte ((v ^^^ 118) &&& 255) = wordByte ((w ^^^ 118) &&& 255) := fun hp => by rw [h hp]

theorem round3Sub8000_sim {ctx ctx' : Bytes} (hctx : SameTable ctx ctx')
    (a2 a3 a4 a5 a6 v6 v8 v9 v10 v11 v12 : Word) :
    Sim (Holds (SlotFact.den r) round2Facts) (round3Sub8000 ctx a2 a3 a4 a5 a6 v6 v8 v9 v10 v11 v12)
      (round3Sub8000 ctx' a2 a3 a4 a5 a6 v6 v8 v9 v10 v11 v12)
      (fun a b s t => PtRel r a.pt b.pt ∧ Holds (SlotFact.den r) round3Facts s t) := by
  unfold round3Sub8000
  repeat
    (try extract_lets)
    first
    | with_reducible refine Sim.lookup hctx fun _ => ?_
    | with_reducible refine Sim.load_same fun _ => ?_
    | with_reducible refine Sim.store_eq ?_
  refine Sim.load_chain fun a400 b400 h400 => ?_
  have h82 := low_xor h400
  repeat
    (try extract_lets)
    first
    | with_reducible refine Sim.load_off ?_
    | with_reducible refine Sim.load_chain fun a b hab => ?_
    | with_reducible apply Sim.ctxb_when hctx r.chained
      · first
        | exact low_congr hab
        | exact fun hc => congrArg (fun w : Word => (w &&& 0xFF) ^^^ 147) (h82 _ hc)
      · decide
      intro _ _ _
    | with_reducible refine Sim.lookup hctx fun _ => ?_
    | with_reducible refine Sim.load_same fun _ => ?_
    | with_reducible refine Sim.load_counter ?_
    | with_reducible refine Sim.store_eq ?_
  extract_lets pt pt'
  refine Sim.bind (copies_sim chainCopies _ (by decide +kernel)) fun _ _ => Sim.pure fun s t h => ?_
  refine ⟨⟨rfl, rfl, ?_⟩, h.restrict (by decide +kernel)⟩
  repeat refine List.Forall₂.cons (pt_byte (by assumption)) ?_
  exact List.Forall₂.nil

end Temari.Round3Sim
