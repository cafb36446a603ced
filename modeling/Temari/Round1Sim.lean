import Temari.RoundWindow
import Temari.Round1

/-! Two runs of round 1 on the same sixteen bytes at two positions. -/
set_option maxRecDepth 4000
namespace Temari.Round1Sim
open RoundMachine Relational RoundRules RoundWindow Round1
variable {r : Runs}

/-- Only 24 bits are left of a value after a shift by eight. -/
theorem shiftLeft_eight_congr {a b : Word} (h : a &&& 0xFFFFFF = b &&& 0xFFFFFF) :
    a <<< 8 = b <<< 8 := by
  have e (x : Word) : (x &&& 0xFFFFFF).toNat = x.toNat % 2 ^ 24 := toNat_and_mask x 24 (by decide)
  have h' := congrArg BitVec.toNat h
  rw [e, e] at h'
  apply BitVec.eq_of_toNat_eq
  simp only [BitVec.toNat_shiftLeft, Nat.shiftLeft_eq]
  omega

theorem low24_sub {a b c d : Word} (h : a &&& 0xFFFFFF = b &&& 0xFFFFFF)
    (h' : c &&& 0xFFFFFF = d &&& 0xFFFFFF) : (a - c) &&& 0xFFFFFF = (b - d) &&& 0xFFFFFF := by
  have e (x : Word) : (x &&& 0xFFFFFF).toNat = x.toNat % 2 ^ 24 := toNat_and_mask x 24 (by decide)
  have ha := congrArg BitVec.toNat h
  have hc := congrArg BitVec.toNat h'
  rw [e, e] at ha hc
  apply BitVec.eq_of_toNat_eq
  rw [e, e, BitVec.toNat_sub, BitVec.toNat_sub]
  have := c.isLt
  have := d.isLt
  omega

theorem low24_xor {a b c : Word} (h : a &&& 0xFFFFFF = b &&& 0xFFFFFF) :
    (a ^^^ c) &&& 0xFFFFFF = (b ^^^ c) &&& 0xFFFFFF := by
  have e (x : Word) : (x ^^^ c) &&& 0xFFFFFF = (x &&& 0xFFFFFF) ^^^ (c &&& 0xFFFFFF) := by
    apply BitVec.eq_of_getLsbD_eq
    intro i hi
    simp only [BitVec.getLsbD_xor, BitVec.getLsbD_and]
    cases x.getLsbD i <;> cases c.getLsbD i <;> simp
  rw [e, e, h]

theorem round1Mid_rax (ctx ct : Bytes) (regs : Round1Regs) {a b : Word}
    (h : a &&& 0xFFFFFF = b &&& 0xFFFFFF) :
    round1Mid ctx ct { regs with rax := a } = round1Mid ctx ct { regs with rax := b } := by
  obtain ⟨x, hx⟩ : ∃ x, round1Mid ctx ct { regs with rax := a } = x := ⟨_, rfl⟩
  obtain ⟨y, hy⟩ : ∃ y, round1Mid ctx ct { regs with rax := b } = y := ⟨_, rfl⟩
  rw [hx, hy]
  unfold round1Mid at hx hy
  extract_lets rdi rsi rdx rcx r8 r9 rax rbx r10 r11 r12 r13 r14 r15 rbp a1 d1 d2 d3 a2 a3 at hx
  extract_lets rdi' rsi' rdx' rcx' r8' r9' rax' rbx' r10' r11' r12' r13' r14' r15' rbp' b1 e1 e2
    e3 b2 b3 at hy
  have h77 : a1 &&& 0xFFFFFF = b1 &&& 0xFFFFFF := low24_xor h
  have h67 : a1 &&& 67 = b1 &&& 67 := by
    have e (x : Word) : x &&& 67 = (x &&& 0xFFFFFF) &&& 67 := by rw [BitVec.and_assoc]; rfl
    rw [e, h77, ← e]
  have ha : a3 = b3 := by
    refine shiftLeft_eight_congr (low24_sub h77 ?_)
    show ((a1 &&& 67) + (a1 &&& 67)) &&& _ = ((b1 &&& 67) + (b1 &&& 67)) &&& _
    rw [h67]
  clear_value a3 b3
  subst ha
  exact hx.symm.trans hy

theorem round1Mid_sim {ctx ctx' ct ct' : Bytes} {regs regs' : Round1Regs}
    (hctx : SameTable ctx ctx') (hct : SameWindow ct ct' r.pos r.pos')
    (hp : r.pos &&& 15 = 0) (hp' : r.pos' &&& 15 = 0)
    (hrdi : regs.rdi = rdiMask ^^^ r.pos) (hrdi' : regs'.rdi = rdiMask ^^^ r.pos')
    (hrsi : regs.rsi = 8 + r.pos) (hrsi' : regs'.rsi = 8 + r.pos')
    (hrcx : regs.rcx &&& 0xFF = regs'.rcx &&& 0xFF)
    (hrax : regs.rax &&& 0xFFFFFF = regs'.rax &&& 0xFFFFFF) :
    Sim (Holds (SlotFact.den r) entryFacts) (round1Mid ctx ct regs)
      (round1Mid ctx' ct' regs')
      (fun a b s t => (a.rax = b.rax ∧ a.r13 = b.r13 ∧ a.r15 = b.r15 ∧ a.r8 = b.r8 ∧ a.r14 = b.r14)
        ∧ Holds (SlotFact.den r) midFacts s t) := by
  obtain ⟨rdi, rsi, rdx, rcx, r8, r9, rax, rbx, r10, r11, r12, r13, r14, r15, rbp⟩ := regs
  obtain ⟨rdi', rsi', rdx', rcx', r8', r9', rax', rbx', r10', r11', r12', r13', r14', r15', rbp'⟩ :=
    regs'
  dsimp only at *
  subst hrdi hrdi' hrsi hrsi'
  have he := round1Mid_rax ctx ct ⟨rdiMask ^^^ r.pos, 8 + r.pos, rdx, rcx, r8, r9, rax, rbx,
    r10, r11, r12, r13, r14, r15, rbp⟩ hrax
  dsimp only at he
  rw [he]
  clear hrax he rax
  unfold round1Mid
  dsimp -zeta only
  refine Sim.ctxb_low hctx hrcx (by decide) fun rcx => ?_
  repeat
    (try extract_lets)
    first
    | with_reducible refine Sim.lookup hctx fun _ => ?_
    | with_reducible refine Sim.ctPage hct hp hp' fun _ => ?_
    | with_reducible refine Sim.load_same fun _ => ?_
    | with_reducible refine Sim.load_off ?_
    | with_reducible refine Sim.load_masked ?_
    | with_reducible refine Sim.store_eq ?_
    | with_reducible refine Sim.store_off hp hp' ?_
    | with_reducible refine Sim.store_masked hp hp' ?_
    | with_reducible refine Sim.store_low rfl ?_
    | with_reducible refine Sim.read_any fun _ _ => ?_
  refine Sim.pure fun s t h => ⟨⟨rfl, rfl, rfl, rfl, rfl⟩, h.restrict ?_⟩
  decide +kernel

theorem round1Tail_sim {ctx ctx' : Bytes} (hctx : SameTable ctx ctx') (eax r13 r15 r8 r14 : Word) :
    Sim (Holds (SlotFact.den r) midFacts) (round1Tail ctx eax r13 r15 r8 r14)
      (round1Tail ctx' eax r13 r15 r8 r14)
      (fun a b s t => a = b ∧ Holds (SlotFact.den r) tailFacts s t) := by
  unfold round1Tail
  repeat
    (try extract_lets)
    first
    | with_reducible refine Sim.lookup hctx fun _ => ?_
    | with_reducible refine Sim.load_same fun _ => ?_
    | with_reducible refine Sim.store_eq ?_
  refine Sim.pure fun s t h => ⟨rfl, h.restrict ?_⟩
  decide +kernel

end Temari.Round1Sim
