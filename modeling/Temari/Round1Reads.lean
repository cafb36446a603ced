import Temari.InputReads
import Temari.Round1
import Temari.RoundWindow

/-! What round1_mid reads of the ciphertext: the sixteen bytes of its block, once each, whatever
is in the state. -/
set_option maxRecDepth 8000
namespace Temari.Round1Reads
open RoundMachine Relational RoundRules RoundWindow Round1 InputReads
variable {ct : Bytes} {pos : Word} {K : Facts SlotFact} {l : List Nat} {γ : Type}

/-- `ct[i]`. -/
def readByte (ct : Bytes) (i : Nat) : Option UInt8 := ct[i]?

/-- One run at this position, with nothing known about the other slots. -/
def atPos (pos : Word) : Runs := ⟨fun _ => 0, False, 0, 0, pos, pos⟩

/-- What is known about the slots of the run. -/
abbrev Seen (pos : Word) (K : Facts SlotFact) (s : St) : Prop :=
  Known (SlotFact.den (atPos pos)) K s

section Rules
variable {P : St → Prop} {G : Bytes → Word → Round γ} {H : Bytes → Unit → Round γ} {k : Nat}

theorem Traced.lookup {ctx : Bytes} (hctx : 0x8000 ≤ ctx.length) {m : Round Word}
    (h : ∀ v, Traced readByte ct P (fun c => G c v) l)
    (hm : Lookup ctx ctx m m := by with_reducible constructor; decide) :
    Traced readByte ct P (fun c => m >>= G c) l := by
  obtain ⟨v, rfl, -⟩ := hm.same (SameTable.refl hctx)
  exact h v

/-- The read through the page window is a read at the block's own byte j. -/
theorem Traced.ctPage (hp : pos &&& 15 = 0) (hlt : pos.toNat + 15 < ct.length) {i j x : Word}
    (h : ∀ v, Traced readByte ct P (fun c => G c v) l)
    (hx : Unmasked pos x i := by with_reducible constructor <;> decide) (hij : i = j := by decide)
    (hj : j &&& 15 = j := by decide) :
    Traced readByte ct P (fun c => ctPage c (8 + pos) x >>= G c) ((pos.toNat + j.toNat) :: l) := by
  subst hij
  obtain rfl := hx.eq hp
  have hbyte : pos.toNat + i.toNat < ct.length := by
    have := (offset_bounds hp hj).2
    omega
  have heq : (fun c => RoundMachine.ctPage c (8 + pos) (pos + i) >>= G c) =
      fun c => liftM (readByte c (pos.toNat + i.toNat)) >>= fun b => G c (byteWord b) := by
    funext c
    rw [ctPage_eq hp hj]
    simp only [readByte, bind_assoc, pure_bind]
  rw [heq]
  exact Traced.look (List.getElem?_eq_getElem hbyte) (h _)

theorem Traced.load_off (h : Traced readByte ct (Seen pos K) (fun c => G c (pos + offsetOf k)) l)
    (hk : k < stSize := by decide) (he : K.lookup k = some .off := by decide +kernel) :
    Traced readByte ct (Seen pos K) (fun c => load k >>= G c) l := by
  refine Traced.read_tag .off hk he fun a ha => ?_
  rw [show a = pos + offsetOf k from ha.1]
  exact h

theorem Traced.load_masked
    (h : Traced readByte ct (Seen pos K) (fun c => G c ((pos + offsetOf k) ^^^ slotMask)) l)
    (hk : k < stSize := by decide) (he : K.lookup k = some .masked := by decide +kernel) :
    Traced readByte ct (Seen pos K) (fun c => load k >>= G c) l := by
  refine Traced.read_tag .masked hk he fun a ha => ?_
  rw [show a = (pos + offsetOf k) ^^^ slotMask from ha.1]
  exact h

theorem Traced.store_any {v : Word}
    (h : Traced readByte ct (Seen pos ((k, .eq) :: K)) (fun c => H c ()) l)
    (hk : k < stSize := by decide) :
    Traced readByte ct (Seen pos K) (fun c => store k v >>= H c) l :=
  Traced.write SlotFact.eq hk rfl h

theorem Traced.store_off {o v : Word} (hp : pos &&& 15 = 0)
    (h : Traced readByte ct (Seen pos ((k, .off) :: K)) (fun c => H c ()) l)
    (hv : Unmasked pos v o := by with_reducible constructor <;> decide)
    (ho : offsetOf k = o := by decide) (hk : k < stSize := by decide) :
    Traced readByte ct (Seen pos K) (fun c => store k v >>= H c) l := by
  subst ho
  exact Traced.write SlotFact.off hk ⟨hv.eq hp, hv.eq hp⟩ h

theorem Traced.store_masked {o m v : Word} (hp : pos &&& 15 = 0)
    (h : Traced readByte ct (Seen pos ((k, .masked) :: K)) (fun c => H c ()) l)
    (hv : Masked pos v o m := by with_reducible constructor <;> decide)
    (ho : offsetOf k = o := by decide) (hm : slotMask = m := by decide)
    (hk : k < stSize := by decide) :
    Traced readByte ct (Seen pos K) (fun c => store k v >>= H c) l := by
  subst ho hm
  exact Traced.write SlotFact.masked hk ⟨hv.eq hp, hv.eq hp⟩ h

end Rules

/-- The bytes of the block in the order in which round1_mid reads them. -/
def readOrder : List Word := [8, 9, 10, 11, 12, 13, 7, 6, 0, 3, 4, 1, 14, 5, 2, 15]

theorem round1Mid_traced {ctx : Bytes} {regs : Round1Regs} (hctx : 0x8000 ≤ ctx.length)
    (hp : pos &&& 15 = 0) (hlt : pos.toNat + 15 < ct.length) (hrdi : regs.rdi = rdiMask ^^^ pos)
    (hrsi : regs.rsi = 8 + pos) :
    Traced readByte ct (Seen pos []) (fun c => round1Mid ctx c regs)
      (readOrder.map fun k => pos.toNat + k.toNat) := by
  obtain ⟨rdi, rsi, rdx, rcx, r8, r9, rax, rbx, r10, r11, r12, r13, r14, r15, rbp⟩ := regs
  dsimp only at hrdi hrsi
  subst hrdi hrsi
  rw [readOrder]
  repeat rw [List.map_cons]
  rw [List.map_nil]
  unfold round1Mid
  dsimp -zeta only
  extract_lets
  repeat
    (try extract_lets)
    first
    | with_reducible refine Traced.lookup hctx fun _ => ?_
    | with_reducible refine Traced.ctPage hp hlt fun _ => ?_
    | with_reducible refine Traced.load_off ?_
    | with_reducible refine Traced.load_masked ?_
    | with_reducible refine Traced.store_off hp ?_
    | with_reducible refine Traced.store_masked hp ?_
    | with_reducible refine Traced.store_any ?_
    | with_reducible refine Traced.read_any fun _ => ?_
  exact Traced.pure

end Temari.Round1Reads
